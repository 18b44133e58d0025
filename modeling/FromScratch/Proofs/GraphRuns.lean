import FromScratch.Proofs.GraphEdges
import Mathlib.Data.List.Induction

/-! Runs of the calls that change a graph. As long as no name is given twice, the
tables list the same nodes, no pointer is left behind, and patching the edges at
every call gives as many of them as building all anew. -/

namespace FromScratch.Inference
open Lib (FiniteMap)
open Lib.FiniteMap (lookup_insert_eq)

variable {F : Type}

/-- The calls that change which nodes there are. -/
inductive GraphCall (F : Type) where
  | addNode (walk : FiniteMap.Traversal Text (NodeEntry F)) (name opTypeStr : Text) (inputs outputs : List Text)
      (attributes : FiniteMap Text (Attribute F))
  | removeNode (walk : FiniteMap.Traversal Text (NodeEntry F)) (name : Text)

namespace GraphCall

def run : GraphCall F → Graph F → Graph F
  | .addNode walk name opTypeStr inputs outputs attributes, graph =>
    graph.addNode walk (Node.make name opTypeStr inputs outputs attributes)
  | .removeNode walk name, graph => graph.removeNode walk name

/-- The call gives no name that is in use. -/
def Fresh : GraphCall F → Graph F → Prop
  | .addNode _ name .., graph => name ∉ graph.nodeMap
  | .removeNode .., _ => True

instance (call : GraphCall F) (graph : Graph F) : Decidable (call.Fresh graph) :=
  match call with
  | .addNode _ name .. => inferInstanceAs (Decidable (name ∉ graph.nodeMap))
  | .removeNode .. => inferInstanceAs (Decidable True)

end GraphCall

namespace Graph

/-- The graph after some calls. -/
def after (calls : List (GraphCall F)) : Graph F := calls.foldl (fun graph call => call.run graph) {}

/-- No call of the run gives a name that is in use. -/
def FreshRun (calls : List (GraphCall F)) : Prop :=
  ∀ earlier call, earlier ++ [call] <+: calls → call.Fresh (after earlier)

/-- The two tables list the same nodes, each once, and every pointer is to one of them. -/
structure Represented (graph : Graph F) : Prop where
  distinct : graph.insertionOrder.Nodup
  listed : ∀ name, name ∈ graph.insertionOrder ↔ name ∈ graph.nodeMap
  owned : ∀ side name ref, ref ∈ linksOf side graph.nodeMap name → ∃ entry, graph.deref ref = .ok entry

section Runs
variable {graph : Graph F} {calls : List (GraphCall F)} {call : GraphCall F}

theorem after_append (earlier : List (GraphCall F)) (call : GraphCall F) :
    after (earlier ++ [call]) = call.run (after earlier) := by
  rw [after, List.foldl_append]
  rfl

theorem FreshRun.init {earlier : List (GraphCall F)} (fresh : FreshRun (earlier ++ [call])) :
    FreshRun earlier ∧ call.Fresh (after earlier) :=
  ⟨fun before next begins => fresh before next (begins.trans (List.prefix_append _ _)), fresh earlier call List.prefix_rfl⟩

theorem FreshRun.empty : FreshRun ([] : List (GraphCall F)) := by
  intro earlier call begins
  cases List.append_eq_nil_iff.mp (List.prefix_nil.mp begins) |>.2

theorem FreshRun.append {earlier : List (GraphCall F)} (run : FreshRun earlier) (fresh : call.Fresh (after earlier)) :
    FreshRun (earlier ++ [call]) := by
  intro before next begins
  rcases List.prefix_concat_iff.mp begins with same | inside
  · obtain ⟨rfl, rfl⟩ := List.append_singleton_inj.mp same
    exact fresh
  · exact run before next inside

/-- What a fresh call preserves is true after every run of them. -/
theorem after_induction {holds : Graph F → Prop} (start : holds {})
    (step : ∀ graph (call : GraphCall F), holds graph → call.Fresh graph → holds (call.run graph)) (fresh : FreshRun calls) :
    holds (after calls) := by
  induction calls using List.reverseRecOn with
  | nil => exact start
  | append_singleton earlier call ih =>
    obtain ⟨before, here⟩ := fresh.init
    rw [after_append]
    exact step _ call (ih before) here

/-- Kept tables of distinct names, whose edges are those of the names. -/
structure Sound (graph : Graph F) : Prop where
  kept : graph.Kept
  distinct : graph.insertionOrder.Nodup
  wired : graph.Wired

theorem Sound.run (sound : Sound graph) (fresh : call.Fresh graph) : Sound (call.run graph) := by
  cases call with
  | addNode walk name opTypeStr inputs outputs attributes =>
    refine ⟨sound.kept.addNode rfl, ?_, sound.wired.addNode fresh⟩
    refine List.nodup_append.mpr ⟨sound.distinct, List.nodup_singleton _, fun other member new here => ?_⟩
    rintro rfl
    rw [List.mem_singleton] at here
    subst here
    exact fresh ((sound.kept.listed _).mp member)
  | removeNode walk name =>
    refine ⟨sound.kept.removeNode name, ?_, Wired.removeNode sound.kept fun _ => sound.wired⟩
    by_cases present : name ∈ graph.nodeMap
    · rw [GraphCall.run, insertionOrder_removeNode name present]
      exact sound.distinct.filter _
    · rw [GraphCall.run, Graph.removeNode, if_neg present]
      exact sound.distinct

theorem sound_after (fresh : FreshRun calls) : Sound (after calls) :=
  after_induction ⟨Kept.empty, List.nodup_nil, Wired.empty⟩ (fun _ _ sound fresh => sound.run fresh) fresh

theorem deref_iff {ref : NodeRef} (kept : graph.Kept) : (∃ entry, graph.deref ref = .ok entry) ↔
    pointer (stored graph.nodeMap) ref.name = some ref := by
  constructor
  · rintro ⟨entry, here⟩
    exact kept.pointer_deref here
  · intro found
    obtain ⟨⟨id, node⟩, here, rfl⟩ := Option.map_eq_some_iff.mp found
    obtain ⟨entry, lookup, same, rfl⟩ := stored_eq_some.mp here
    subst same
    exact ⟨entry, deref_ref (by rw [kept.named_lookup lookup, lookup])⟩

theorem mem_links_deref {ref : NodeRef} {side : Side} {entry : NodeEntry F} (here : graph.deref ref = .ok entry) :
    linksOf side graph.nodeMap ref.name = side.links entry := by
  rw [linksOf, (deref_ok here).1]
  rfl

theorem Wired.mem_links {ref : NodeRef} (wired : Wired graph) (kept : graph.Kept) (side : Side) (name : Text) :
    ref ∈ linksOf side graph.nodeMap name ↔ pointer (stored graph.nodeMap) ref.name = some ref ∧ ref.name ≠ name ∧
      Feeds (stored graph.nodeMap) (side.ends name ref.name) := by
  rw [wired side name ref]
  constructor
  · rintro ⟨other, different, feeds, found⟩
    obtain rfl := kept.pointer_name found
    exact ⟨found, different, feeds⟩
  · rintro ⟨found, different, feeds⟩
    exact ⟨ref.name, different, feeds, found⟩

theorem Sound.mem_links {ref : NodeRef} (sound : Sound graph) (side : Side) (name : Text) :
    ref ∈ linksOf side graph.nodeMap name ↔ pointer (stored graph.nodeMap) ref.name = some ref ∧ ref.name ≠ name ∧
      Feeds (stored graph.nodeMap) (side.ends name ref.name) :=
  sound.wired.mem_links sound.kept side name

theorem Sound.represented (sound : Sound graph) : Represented graph where
  distinct := sound.distinct
  listed := sound.kept.listed
  owned side name _ member := (deref_iff sound.kept).mpr ((sound.mem_links side name).mp member).1

/-- The tables and the pointers are right after every call of a run exactly if no
call gives a name in use. -/
theorem represented_iff (calls : List (GraphCall F)) :
    (∀ earlier, earlier <+: calls → (after earlier).Represented) ↔ FreshRun calls := by
  constructor
  · intro represented earlier call begins
    have before := represented earlier ((List.prefix_append _ _).trans begins)
    have now := represented _ begins
    rw [after_append] at now
    cases call with
    | addNode walk name opTypeStr inputs outputs attributes =>
      intro present
      have twice := (List.nodup_append.mp now.distinct).2.2
      exact twice name ((before.listed name).mpr present) name List.mem_cons_self rfl
    | removeNode walk name => trivial
  · intro fresh earlier begins
    exact (sound_after fun before call more => fresh before call (more.trans begins)).represented

end Runs

/-- A name given twice is listed twice, and the consumer of the node that is
replaced keeps a pointer to it. -/
theorem after_repeated : ∃ calls : List (GraphCall Nat), (after calls).insertionOrder = [text "a", text "b", text "a"] ∧
    (∃ ref ∈ linksOf .parents (after calls).nodeMap (text "b"), (after calls).deref ref = .error .undefined) ∧
    ¬(after calls).Represented := by
  let calls : List (GraphCall Nat) :=
    [.addNode .kept (text "a") (text "Relu") [text "x"] [text "t"] ∅,
      .addNode .kept (text "b") (text "Relu") [text "t"] [text "y"] ∅,
      .addNode .kept (text "a") (text "Relu") [text "x"] [text "t"] ∅]
  have order : (after calls).insertionOrder = [text "a", text "b", text "a"] := by decide +kernel
  have stale : (⟨text "a", 0⟩ : NodeRef) ∈ linksOf .parents (after calls).nodeMap (text "b") := by decide +kernel
  refine ⟨calls, order, ⟨_, stale, by rfl⟩, fun represented => ?_⟩
  have distinct := represented.distinct
  rw [order] at distinct
  exact absurd distinct (by decide)

end Graph
end FromScratch.Inference
