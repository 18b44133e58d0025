import FromScratch.Inference.Engine
import FromScratch.Proofs.BatchNodes
import FromScratch.Proofs.Batching

/-! The mates of a request in a batch do not influence its answer. What a batch leaves
in a slot is, row by row, what the rows leave there on their own. -/

namespace FromScratch.Inference
open Lib (FiniteMap)
open InferenceSession (Scheduled Settled denote view given nodeAt tasks levelsOf)

section Stores
variable {n : UInt64} {varies : Text → Prop} {store : Text → Tensor ℚ}

open Classical in
/-- The slots as a row of the batch has them. -/
noncomputable def rowStore (n : UInt64) (varies : Text → Prop) (store : Text → Tensor ℚ) (i : Nat)
  (name : Text) : Tensor ℚ :=
  if found : varies name ∧ ∃ row, Stacked n (store name) row then found.2.choose i else store name

theorem rowStore_stacked {name : Text} (varying : varies name) (rows : ∃ row, Stacked n (store name) row) :
    Stacked n (store name) fun i => rowStore n varies store i name := by
  have found : varies name ∧ ∃ row, Stacked n (store name) row := ⟨varying, rows⟩
  have same : (fun i => rowStore n varies store i name) = found.2.choose := funext fun i => dif_pos found
  rw [same]
  exact found.2.choose_spec

theorem rowStore_fixed {name : Text} (fixed : ¬varies name) (i : Nat) : rowStore n varies store i name = store name :=
  dif_neg fun found => fixed found.1

end Stores

section Rows
variable {provider : Provider} {model : Model ℚ} {session : Session ℚ} {slots tensors after : Slots ℚ}
  {varies : Text → Prop} {rank : Text → ℕ} {n : UInt64} {batch : Tensor ℚ} {row : Nat → Tensor ℚ} {store : Text → Tensor ℚ}

theorem InferenceSession.Scheduled.has_node (scheduled : Scheduled model session slots) {ref : NodeRef}
    (member : ref ∈ (levelsOf session).flatten) : ∃ name, model.graph.Has name (nodeAt model.graph ref) := by
  have inside := (scheduled.mem_levels session.parallel ref).mp member
  obtain ⟨entry, points⟩ := (Graph.topologicalSort_sound scheduled.sorted).1.live inside
  exact ⟨_, InferenceSession.has_nodeAt points⟩

/-- The slots of a node. -/
theorem InferenceSession.Scheduled.slots_of (scheduled : Scheduled model session slots) (kept : model.graph.Kept)
    {name : Text} {node : Node ℚ}
    (has : model.graph.Has name node) : (∀ read ∈ node.inputs, read ∈ slots) ∧ InferenceSession.output node ∈ slots := by
  obtain ⟨ref, member, rfl, _⟩ := InferenceSession.mem_sorted kept scheduled.sorted has
  exact ⟨scheduled.reads ref member, (scheduled.keys _).mpr (.inr (.inr ⟨ref, member, rfl⟩))⟩

/-- What a node whose product does not read its own output makes of the slots. -/
theorem value_free {ref : NodeRef} (free : ¬InferenceSession.Entangled (nodeAt model.graph ref)) (store : Text → Tensor ℚ) :
    Lib.Dataflow.value (tasks provider model.graph) store ref =
      denote provider (nodeAt model.graph ref) ((nodeAt model.graph ref).inputs.map store) := by
  rw [Lib.Dataflow.value, tasks, InferenceSession.task, if_neg free]

namespace Batched

/-- Every slot of a name that varies holds a row for every row of the request. -/
theorem rows_exist (batched : Batched model varies (provider.gemmStrategy = .auto)) (fed : 0 < n.toNat)
    (fit : GraphOptimizer.Optimizable model rank) (scheduled : Scheduled model session slots)
    (solution : Solution provider model session.inputName batch store) (stacked : Stacked n batch row) :
    ∀ name, varies name → name ∈ slots → ∃ row, Stacked n (store name) row := by
  have sequential := fit.wellFormed.sequential
  have valued := Valued.of_solution fit scheduled solution
  have legal : Lib.Dataflow.Legal (tasks provider model.graph) (levelsOf session) :=
    scheduled.legal sequential session.parallel
  refine legal.key_induction (fun name => varies name → name ∈ slots → ∃ row, Stacked n (store name) row) ?_ ?_
  · intro name unwritten varying present
    rw [scheduled.writes_levels] at unwritten
    rcases (scheduled.keys name).mp present with held | rfl | written
    · exact absurd varying (batched.fixed name held)
    · exact ⟨row, valued.request ▸ stacked⟩
    · exact absurd written unwritten
  · intro ref member reads varying _
    obtain ⟨owner, has⟩ := scheduled.has_node member
    have known := (scheduled.slots_of sequential.kept has).1
    obtain ⟨_, free, output, single, made⟩ := solution.nodes _ _ has
    have reading : (tasks provider model.graph ref).reads = _ := InferenceSession.reads_of_free free
    rw [reading] at reads
    have writes : (tasks provider model.graph ref).write = output := by
      rw [tasks, InferenceSession.task_write, InferenceSession.output, single]
      rfl
    rw [writes] at varying ⊢
    have splits := batched.denote_splits fed has (single ▸ List.mem_cons_self) varying valued.initializers
      (fun read member varying => rowStore_stacked varying (reads read member varying (known read member)))
      fun read _ fixed i _ => rowStore_fixed fixed i
    obtain ⟨row, rows, _⟩ := splits _ made
    exact ⟨row, rows⟩

/-- What a batch leaves in the slots is, row by row, what a run of the row leaves. -/
theorem valued_row (batched : Batched model varies (provider.gemmStrategy = .auto)) (fed : 0 < n.toNat)
    (fit : GraphOptimizer.Optimizable model rank) (scheduled : Scheduled model session slots)
    (solution : Solution provider model session.inputName batch store) (stacked : Stacked n batch row) {i : Nat}
    (inside : i < n.toNat) :
    Valued provider (rowStore n varies store i) session.inputName session.outputName (row i) rank model := by
  have valued := Valued.of_solution fit scheduled solution
  have rows := batched.rows_exist fed fit scheduled solution stacked
  have kept := fit.wellFormed.kept
  refine ⟨fit, fun name node has => ?_, fun name tensor held => ?_, ?_, valued.firstInput, valued.firstOutput,
    valued.reads, valued.produced⟩
  · obtain ⟨supported, output, single, made⟩ := valued.nodes name node has
    refine ⟨supported, output, single, ?_⟩
    have written : output ∈ node.outputs := single ▸ List.mem_cons_self
    obtain ⟨known, slotted⟩ := scheduled.slots_of kept has
    rw [InferenceSession.output, single, List.headD_cons] at slotted
    by_cases varying : varies output
    · have splits := batched.denote_splits fed has written varying valued.initializers
        (fun read member varying => rowStore_stacked varying (rows read varying (known read member)))
        fun read _ fixed i _ => rowStore_fixed fixed i
      obtain ⟨others, laid, each⟩ := splits _ made
      have same := Stacked.unique laid (rowStore_stacked varying (rows output varying slotted)) inside
      exact (each i inside).trans (congrArg Except.ok same)
    · rw [rowStore_fixed varying, ← made]
      exact batched.denote_fixed has written varying fun read _ fixed => rowStore_fixed fixed i
  · have fixed := batched.fixed name ((FiniteMap.mem_iff_lookup _ _).mpr ⟨tensor, held⟩)
    rw [rowStore_fixed fixed, valued.initializers name tensor held]
  · have varying := batched.request _ valued.firstInput
    have laid := rowStore_stacked varying ⟨row, valued.request.symm ▸ stacked⟩
    rw [valued.request] at laid
    exact laid.unique stacked inside

/-- A run of a batch returns the rows that runs of the rows return. -/
theorem rows_run (batched : Batched model varies (provider.gemmStrategy = .auto)) (fed : 0 < n.toNat)
    (fit : GraphOptimizer.Optimizable model rank) (scheduled : Scheduled model session slots)
    (settled : Settled model session slots tensors)
    (stacked : Stacked n batch row) {call : InferenceSession.Call ℚ} {result : Tensor ℚ}
    (ran : InferenceSession.run provider session call batch tensors = .ok (after, .ok result)) :
    ∃ answers, Stacked n result answers ∧ ∀ i, i < n.toNat → ∀ (again : InferenceSession.Call ℚ) (start : Slots ℚ),
      Settled model session slots start → ∃ last, InferenceSession.run provider session again (row i) start =
        .ok (last, .ok (answers i)) := by
  have sequential := fit.wellFormed.sequential
  have nonempty := (scheduled.run_returns sequential settled ran).1
  obtain ⟨solution, rfl⟩ := scheduled.solution sequential settled ran
  have shown := batched.output _ scheduled.firstOutput
  have rows := batched.rows_exist fed fit scheduled solution stacked
  refine ⟨_, rowStore_stacked shown (rows _ shown scheduled.produced), fun i inside again start settled => ?_⟩
  refine (batched.valued_row fed fit scheduled solution stacked inside).run_returns scheduled settled ?_ again
  intro empty
  refine nonempty (UInt64.toNat_inj.mp ?_)
  rw [Tensor.size_toNat, stacked.length inside, ← Tensor.size_toNat, empty]
  exact Nat.mul_zero _

/-- A slot of the batch against the slot of one request. -/
def Widened (varies : Text → Prop) (n : UInt64) (store : Text → Tensor ℚ) (name : Text) (tensor : Tensor ℚ) : Prop :=
  (varies name → Wide n tensor (store name)) ∧ (¬varies name → tensor = store name)

section Widening
variable {whole : Prop} {single : Tensor ℚ} {start : Slots ℚ}

/-- What nobody writes. -/
theorem given_widened (batched : Batched model varies whole) (fit : GraphOptimizer.Optimizable model rank)
    (scheduled : Scheduled model session slots)
    (valued : Valued provider store session.inputName session.outputName single rank model)
    (wide : Wide n batch single) (settled : Settled model session slots start) {name : Text} (present : name ∈ slots)
    (unwritten : ¬∃ ref ∈ session.order, InferenceSession.output (nodeAt model.graph ref) = name) :
    Widened varies n store name (given session batch start name) := by
  rcases (scheduled.keys name).mp present with held | rfl | written
  · obtain ⟨tensor, found⟩ := (FiniteMap.mem_iff_lookup _ _).mp held
    have apart : name ≠ session.inputName := by
      rintro rfl
      exact fit.wellFormed.once.inputs _ (List.mem_of_head? scheduled.firstInput) held
    refine ⟨fun varying => absurd varying (batched.fixed name held), fun _ => ?_⟩
    rw [given, Function.update_of_ne apart,
      settled.kept name apart fun ref member same => unwritten ⟨ref, member, same⟩, scheduled.held,
      found, valued.initializers name tensor found]
    rfl
  · rw [given, Function.update_self]
    exact ⟨fun _ => valued.request.symm ▸ wide, fun fixed => absurd (batched.request _ scheduled.firstInput) fixed⟩
  · exact absurd written unwritten

/-- What a node writes. -/
theorem node_widened {wider : Text → Tensor ℚ} (batched : Batched model varies whole) (full : model.Whole)
    (fed : 0 < n.toNat)
    (few : n.toNat ≤ Gemm.tileLimit) (valued : Valued provider store session.inputName session.outputName single rank model)
    {owner output : Text} {node : Node ℚ} (has : model.graph.Has owner node) (only : node.outputs = [output])
    (reads : ∀ read ∈ node.inputs, Widened varies n store read (wider read))
    (fits : n.toNat * (store output).data.length * 4 < 2 ^ 64) :
    ∃ result, denote provider node (node.inputs.map wider) = .ok result ∧ Widened varies n store output result := by
  obtain ⟨_, _, same, made⟩ := valued.nodes owner node has
  cases only.symm.trans same
  have written : output ∈ node.outputs := only ▸ List.mem_cons_self
  by_cases varying : varies output
  · obtain ⟨result, denoted, wide⟩ := batched.denote_widens full fed few has written varying valued.initializers
      (fun read member => (reads read member).1) (fun read member => (reads read member).2) made fits
    exact ⟨result, denoted, fun _ => wide, fun fixed => absurd varying fixed⟩
  · refine ⟨store output, ?_, fun absurdly => absurd absurdly varying, fun _ => rfl⟩
    rw [← made]
    exact batched.denote_fixed has written varying fun read member => (reads read member).2

/-- Where a request can be run, so can a batch of requests of its shape. -/
theorem batch_runs (batched : Batched model varies whole) (full : model.Whole) (fed : 0 < n.toNat)
    (fit : GraphOptimizer.Optimizable model rank) (scheduled : Scheduled model session slots)
    (settled : Settled model session slots tensors)
    (wide : Wide n batch single) {call : InferenceSession.Call ℚ} {result : Tensor ℚ}
    (ran : InferenceSession.run provider session call single tensors = .ok (after, .ok result))
    (fits : ∀ name tensor, after.lookup name = some tensor → n.toNat * tensor.data.length * 4 < 2 ^ 64)
    (again : InferenceSession.Call ℚ) (ready : Settled model session slots start) :
    ∃ last answer, InferenceSession.run provider session again batch start = .ok (last, .ok answer) := by
  have sequential := fit.wellFormed.sequential
  have keys := (scheduled.run_settled settled ran).keys
  have nonempty := (scheduled.run_returns sequential settled ran).1
  obtain ⟨solution, rfl⟩ := scheduled.solution sequential settled ran
  have valued := Valued.of_solution fit scheduled solution
  have legal : Lib.Dataflow.Legal (tasks provider model.graph) (levelsOf session) :=
    scheduled.legal sequential session.parallel
  have sized : 0 < single.data.length := by
    rw [← Tensor.size_toNat]
    exact Nat.pos_of_ne_zero fun zero => nonempty (UInt64.toNat_inj.mp zero)
  obtain ⟨_, _, _, length⟩ := id wide
  have most : n.toNat ≤ n.toNat * single.data.length := Nat.le_mul_of_pos_right _ sized
  have few : n.toNat ≤ Gemm.tileLimit := by
    have room := batch.fits
    rw [Gemm.tileLimit]
    omega
  have filled : batch.size ≠ 0 := by
    intro zero
    have count := Tensor.size_toNat batch
    rw [zero, length] at count
    exact absurd count.symm (Nat.ne_of_gt (Nat.mul_pos fed sized))
  have unwritten : ∀ name, ¬Lib.Dataflow.Writes (tasks provider model.graph) (levelsOf session).flatten name → name ∈ slots →
      Widened varies n (view after) name (given session batch start name) := by
    intro name outside present
    rw [scheduled.writes_levels] at outside
    exact batched.given_widened fit scheduled valued wide ready present outside
  have written : ∀ ref ∈ (levelsOf session).flatten, ∀ wider : Text → Tensor ℚ,
      (∀ name ∈ (tasks provider model.graph ref).reads, name ∈ slots → Widened varies n (view after) name (wider name)) →
        ∃ result, Lib.Dataflow.value (tasks provider model.graph) wider ref = .ok result ∧
          ((tasks provider model.graph ref).write ∈ slots →
            Widened varies n (view after) (tasks provider model.graph ref).write result) := by
    intro ref member wider reads
    obtain ⟨owner, has⟩ := scheduled.has_node member
    obtain ⟨_, free, output, only, _⟩ := solution.nodes owner _ has
    obtain ⟨known, slotted⟩ := scheduled.slots_of sequential.kept has
    have reading : (tasks provider model.graph ref).reads = _ := InferenceSession.reads_of_free free
    rw [reading] at reads
    have writes : (tasks provider model.graph ref).write = output := by
      rw [tasks, InferenceSession.task_write, InferenceSession.output, only]
      rfl
    rw [InferenceSession.output, only, List.headD_cons] at slotted
    rw [writes, value_free free]
    obtain ⟨result, denoted, widened⟩ :=
      batched.node_widened full fed few valued has only (fun read member => reads read member (known read member))
      (fits output _ (InferenceSession.lookup_view ((keys output).mpr slotted)))
    exact ⟨result, denoted, fun _ => widened⟩
  obtain ⟨reached, runs⟩ := Lib.Dataflow.exists_runs legal
    (fun name tensor => name ∈ slots → Widened varies n (view after) name tensor)
    unwritten written
  obtain ⟨last, returned, _⟩ :=
    @Scheduled.run_of_runs ℚ _ provider model session slots start again batch scheduled sequential ready filled
      reached runs
  exact ⟨last, _, returned⟩

end Widening

end Batched
end Rows
end FromScratch.Inference
