import FromScratch.Proofs.SessionRuns

/-! What the slots hold after a run that returns: the request and the initializers,
and for every node what it makes of its inputs. -/

namespace FromScratch.Inference
open Lib (FiniteMap)

variable {F : Type} [Scalar F]

/-- The values of a run. -/
structure Solution (provider : Provider) (model : Model F) (inputName : Text) (input : Tensor F)
    (store : Text → Tensor F) : Prop where
  nodes : ∀ name node, model.graph.Has name node → Provider.supports node.opType = true ∧ ¬InferenceSession.Entangled node ∧
    ∃ output, node.outputs = [output] ∧
      InferenceSession.denote provider node (node.inputs.map store) = .ok (store output)
  request : (∀ name node, model.graph.Has name node → inputName ∉ node.outputs) → store inputName = input
  initializers : ∀ name tensor, model.initializers.lookup name = some tensor → name ≠ inputName →
    (∀ owner node, model.graph.Has owner node → name ∉ node.outputs) → store name = tensor

namespace InferenceSession
open Lib.Dataflow (Writes)
variable {provider : Provider} {model : Model F} {session : Session F} {slots tensors after : Slots F} {call : Call F}
    {input : Tensor F}

omit [Scalar F] in
/-- The order has every node. -/
theorem mem_sorted {order : List NodeRef} (kept : model.graph.Kept) (sorted : model.graph.topologicalSort = .ok order)
    {name : Text}
    {node : Node F} (has : model.graph.Has name node) : ∃ ref ∈ order, nodeAt model.graph ref = node ∧ ref.name = name := by
  obtain ⟨entry, found, rfl⟩ := Graph.has_iff.mp has
  have member := (Graph.topologicalSort_sound sorted).2 name ((kept.listed name).mpr has.mem) entry found
  refine ⟨entry.ref, member, ?_, kept.named_lookup found⟩
  rw [nodeAt, Graph.deref_ref (by rw [kept.named_lookup found, found])]

theorem Scheduled.solution (scheduled : Scheduled model session slots) (sequential : model.Sequential)
    (settled : Settled model session slots tensors) {result : Tensor F}
    (ran : run provider session call input tensors = .ok (after, .ok result)) :
    Solution provider model session.inputName input (view after) ∧ result = view after session.outputName := by
  obtain ⟨_, runs, same⟩ := scheduled.run_returns sequential settled ran
  have solves := Lib.Dataflow.solves_of_runs (scheduled.legal sequential session.parallel) runs
  have unwritten : ∀ name, (∀ owner node, model.graph.Has owner node → name ∉ node.outputs) →
      ¬Writes (tasks provider model.graph) (levelsOf session).flatten name := by
    intro name nobody
    rw [scheduled.writes_levels]
    rintro ⟨ref, member, rfl⟩
    obtain ⟨entry, here⟩ := (Graph.topologicalSort_sound scheduled.sorted).1.live member
    obtain ⟨output, single⟩ := scheduled.single ref member
    refine nobody _ _ (has_nodeAt here) ?_
    rw [InferenceSession.output, single]
    exact List.mem_cons_self
  refine ⟨⟨fun name node has => ?_, fun nobody => ?_, fun name tensor found different nobody => ?_⟩, same⟩
  · obtain ⟨ref, member, rfl, _⟩ := mem_sorted sequential.kept scheduled.sorted has
    obtain ⟨supported, output, single⟩ := scheduled.checked ref member
    have written := solves.written ref ((scheduled.mem_levels session.parallel ref).mpr member)
    by_cases entangled : Entangled (nodeAt model.graph ref)
    · rw [Lib.Dataflow.value, tasks, task, if_pos entangled] at written
      cases written
    · rw [Lib.Dataflow.value, tasks, task, if_neg entangled] at written
      simp only [InferenceSession.output, single, List.headD_cons] at written
      exact ⟨supported, entangled, output, single, written⟩
  · rw [solves.frame _ (unwritten _ nobody), given, Function.update_self]
  · rw [solves.frame _ (unwritten _ nobody), given, Function.update_of_ne different,
      settled.kept name different fun ref member written =>
      unwritten name nobody ((scheduled.writes_levels provider name).mpr ⟨ref, member, written⟩), scheduled.held, found]
    rfl

end InferenceSession
end FromScratch.Inference
