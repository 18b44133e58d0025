import FromScratch.Proofs.OptimizerFixpoint

/-! The elimination removes the nodes that no graph output is made of, whichever of
the dead nodes a round takes. -/

namespace FromScratch.Inference.GraphOptimizer
open Graph
open Lib (FiniteMap)
open Relation (ReflTransGen)

variable {F : Type} {model result : Model F} {removed : List Text}

/-- A node that writes a graph output is reached along the edges from producers to consumers. -/
def Reaches (graph : Graph F) (name : Text) : Prop :=
  ∃ last node, ReflTransGen (fun first last => Feeds (stored graph.nodeMap) (first, last)) name last ∧ graph.Has last node ∧
    ∃ output ∈ node.outputs, output ∈ graph.outputs

theorem feeds_ends {graph : Graph F} {name other : Text} (feeds : Feeds (stored graph.nodeMap) (name, other)) :
    ∃ writer reader, graph.Has name writer ∧ graph.Has other reader := by
  obtain ⟨source, target, from_, to_, _⟩ := feeds
  exact ⟨source.2, target.2, ⟨source.1, from_⟩, ⟨target.1, to_⟩⟩

theorem reaches_iff_live {graph : Graph F} {name : Text} : Reaches graph name ↔ Live graph.Has graph.outputs name := by
  constructor
  · rintro ⟨last, node, path, has, output, written, shown⟩
    induction path using ReflTransGen.head_induction_on with
    | refl => exact .shown has written shown
    | head feeds _ ih =>
      obtain ⟨writer, reader, source, target⟩ := feeds_ends feeds
      obtain ⟨output, written, reads⟩ := (feeds_has source target).mp feeds
      exact .read source written target reads ih
  · intro live
    induction live with
    | shown has written shown => exact ⟨_, _, .refl, has, _, written, shown⟩
    | read has written found reads _ ih =>
      obtain ⟨last, node, path, rest⟩ := ih
      exact ⟨last, node, .head ((feeds_has has found).mpr ⟨_, written, reads⟩) path, rest⟩

/-- What the elimination leaves of a model, and what it has removed. -/
structure Eliminated (model result : Model F) (removed : List Text) : Prop where
  once : removed.Nodup
  unreached : ∀ name, name ∈ removed ↔ name ∈ model.graph.nodeMap ∧ ¬Reaches model.graph name
  nodes : ∀ name node, result.graph.Has name node ↔ model.graph.Has name node ∧ Reaches model.graph name
  order : result.graph.insertionOrder = model.graph.insertionOrder.filter (· ∉ removed)
  ends : result.graph.inputs = model.graph.inputs ∧ result.graph.outputs = model.graph.outputs
  initializers : result.initializers = model.initializers

theorem Elimination.has (rounds : Elimination model removed result) {name : Text} {node : Node F} :
    result.graph.Has name node ↔ name ∉ removed ∧ model.graph.Has name node := by
  induction rounds with
  | done => exact (and_iff_right List.not_mem_nil).symm
  | round walk found isDead _ ih => rw [ih, has_removeNode, List.mem_cons, not_or, ← and_assoc, and_comm (a := name ∉ _)]

theorem Elimination.live_iff (rounds : Elimination model removed result) {name : Text} :
    Live result.graph.Has result.graph.outputs name ↔ Live model.graph.Has model.graph.outputs name := by
  induction rounds with
  | done => rfl
  | round walk found isDead _ ih => exact ih.trans (Eliminates.live_iff (.step walk found isDead))

/-- A node that was removed is there once, and no output is made of it. -/
theorem Elimination.removed_once (rounds : Elimination model removed result) :
    removed.Nodup ∧ ∀ name ∈ removed, name ∈ model.graph.nodeMap := by
  induction rounds with
  | done => exact ⟨List.nodup_nil, nofun⟩
  | @round model result removed walk unused found isDead rest ih =>
    obtain ⟨nodup, inside⟩ := ih
    have there : ∀ name ∈ removed, name ≠ unused.node.name ∧ name ∈ model.graph.nodeMap := by
      intro name member
      obtain ⟨entry, held⟩ := (FiniteMap.mem_iff_lookup _ _).mp (inside name member)
      obtain ⟨apart, has⟩ := has_removeNode.mp (has_lookup held)
      exact ⟨apart, has.mem⟩
    refine ⟨List.nodup_cons.mpr ⟨fun member => (there _ member).1 rfl, nodup⟩, ?_⟩
    exact List.forall_mem_cons.mpr ⟨(has_lookup found).mem, fun name member => (there name member).2⟩

theorem Elimination.frame (rounds : Elimination model removed result) :
    result.graph.insertionOrder = model.graph.insertionOrder.filter (· ∉ removed) ∧ result.graph.inputs =
      model.graph.inputs ∧
      result.graph.outputs = model.graph.outputs ∧ result.initializers = model.initializers := by
  induction rounds with
  | done => simp
  | @round model result removed walk unused found isDead rest ih =>
    obtain ⟨order, starts, ends, same⟩ := ih
    refine ⟨?_, starts.trans (inputs_removeNode ..), ends.trans outputs_removeNode, same⟩
    rw [order, insertionOrder_removeNode _ (has_lookup found).mem, List.filter_filter]
    refine List.filter_congr fun name _ => ?_
    simp [List.mem_cons, not_or, Bool.and_comm]

/-- Which rounds there were makes no difference once nothing is dead. -/
theorem Elimination.eliminated (rounds : Elimination model removed result) (busy : Busy result.graph) {rank : Text → ℕ}
    (falls : Falls model.graph rank) : Eliminated model result removed := by
  obtain ⟨order, starts, ends, same⟩ := rounds.frame
  obtain ⟨once, inside⟩ := rounds.removed_once
  have fewer : Falls result.graph rank := fun name writer other reader output has found =>
    falls name writer other reader output (rounds.has.mp has).2 (rounds.has.mp found).2
  have kept : ∀ name node, result.graph.Has name node ↔ model.graph.Has name node ∧ Reaches model.graph name := by
    intro name node
    rw [reaches_iff_live, ← rounds.live_iff]
    constructor
    · exact fun has => ⟨(rounds.has.mp has).2, busy.live fewer has⟩
    · rintro ⟨has, live⟩
      obtain ⟨other, still⟩ := live.held
      exact rounds.has.mpr ⟨(rounds.has.mp still).1, has⟩
  refine ⟨once, fun name => ⟨fun member => ⟨inside name member, fun reached => ?_⟩, fun ⟨present, unreached⟩ => ?_⟩,
    kept, order,
    ⟨starts, ends⟩, same⟩
  · obtain ⟨entry, held⟩ := (FiniteMap.mem_iff_lookup _ _).mp (inside name member)
    exact (rounds.has.mp ((kept name entry.node).mpr ⟨has_lookup held, reached⟩)).1 member
  · obtain ⟨entry, held⟩ := (FiniteMap.mem_iff_lookup _ _).mp present
    by_contra absent
    exact unreached ((kept name entry.node).mp (rounds.has.mpr ⟨absent, has_lookup held⟩)).2

/-- The pass ends, and what it removes is what no graph output is reached from. So is what any other
choice of dead nodes removes, in no more rounds than there are nodes. -/
theorem eliminateDeadNodes_exact (built : model.Built) (acyclic : model.graph.Acyclic) :
    (∀ (platform : Platform F) (fuel : Nat), model.graph.nodeMap.keys.length < fuel → ∃ result removed,
      eliminateDeadNodes platform fuel model = .ok (result, removed.length) ∧ Eliminated model result removed) ∧
      ∀ removed result, Elimination model removed result → removed.length ≤ model.graph.nodeMap.keys.length ∧
        (Busy result.graph → Eliminated model result removed) := by
  obtain ⟨rank, falls⟩ := exists_falls acyclic
  refine ⟨fun platform fuel enough => ?_, fun removed result rounds => ⟨?_, fun busy => rounds.eliminated busy falls⟩⟩
  · obtain ⟨result, count, ran⟩ := @eliminateDeadNodes_returns F platform model fuel built.kept enough
    obtain ⟨removed, rounds, rfl, busy⟩ := eliminateDeadNodes_removes built.kept ran
    exact ⟨result, removed, ran, rounds.eliminated busy falls⟩
  · obtain ⟨once, inside⟩ := rounds.removed_once
    exact (List.subperm_of_subset once fun name member => AList.mem_keys.mp (inside name member)).length_le

theorem eliminateDeadNodes_exact_branching : ∃ result removed, eliminateDeadNodes plainPlatform 4 branching.model =
    .ok (result, 1) ∧
    removed.length = 1 ∧ Eliminated branching.model result removed := by
  obtain ⟨exact, _⟩ := eliminateDeadNodes_exact branching.assembled.built (branching.acyclic (by decide +kernel))
  obtain ⟨result, removed, ran, eliminated⟩ := exact plainPlatform 4 (by decide +kernel)
  obtain ⟨result', again⟩ : ∃ result', eliminateDeadNodes plainPlatform 4 branching.model = .ok (result', 1) := ⟨_, rfl⟩
  have same := ran.symm.trans again
  simp only [Except.ok.injEq, Prod.mk.injEq] at same
  exact ⟨result, removed, same.2 ▸ ran, same.2, eliminated⟩

end FromScratch.Inference.GraphOptimizer
