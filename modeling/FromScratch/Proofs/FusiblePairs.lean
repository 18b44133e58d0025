import FromScratch.Proofs.EdgeCounts
import FromScratch.Proofs.OptimizerSteps

/-! What the fusion pass looks for, told by the nodes and the tensors alone: a `Gemm`
whose output is read by one `Relu` and by nobody else. -/

namespace FromScratch.Inference.GraphOptimizer
open Graph
open Lib (FiniteMap)

variable {F : Type}

/-- A `Gemm` and the `Relu` that is all that reads it. -/
structure Pair (graph : Graph F) (producer target : Text) (gemm relu : Node F) (output : Text) : Prop where
  source : graph.Has producer gemm
  isGemm : gemm.opType = .gemm
  written : gemm.outputs = [output]
  hidden : output ∉ graph.outputs
  sink : graph.Has target relu
  isRelu : relu.opType = .relu
  read : relu.inputs = [output]
  alone : ∀ name node, graph.Has name node → output ∈ node.inputs → name = target

/-- A `Gemm` and a `Relu` that have the tensor between them for themselves: apart from
what they do with it, nobody writes it and nobody reads it. -/
structure Joins (held : Text → Node F → Prop) (ends : List Text) (producer target : Text) (gemm relu : Node F)
    (output : Text) : Prop where
  source : held producer gemm
  isGemm : gemm.opType = .gemm
  written : gemm.outputs = [output]
  hidden : output ∉ ends
  sink : held target relu
  isRelu : relu.opType = .relu
  read : relu.inputs = [output]
  writers : ∀ name node, held name node → output ∈ node.outputs → name = target ∨ name = producer
  readers : ∀ name node, held name node → output ∈ node.inputs → name = producer ∨ name = target

section Pairs
variable {model : Model F} {producer target : Text} {gemm relu : Node F} {output : Text}

theorem Pair.apart {graph : Graph F} (pair : Pair graph producer target gemm relu output) : producer ≠ target := by
  rintro rfl
  have same := pair.source.unique pair.sink
  subst same
  cases pair.isGemm.symm.trans pair.isRelu

theorem Joins.apart {held : Text → Node F → Prop} {ends : List Text}
    (joins : Joins held ends producer target gemm relu output)
    (single : ∀ name first second, held name first → held name second → first = second) : producer ≠ target := by
  rintro rfl
  cases joins.isGemm.symm.trans (single _ _ _ joins.source joins.sink ▸ joins.isRelu)

theorem pointer_has {graph : Graph F} (kept : graph.Kept) {name : Text} {node : Node F} (has : graph.Has name node) :
    ∃ id, pointer (stored graph.nodeMap) name = some ⟨name, id⟩ := by
  obtain ⟨id, here⟩ := id has
  exact ⟨id, by rw [pointer, here, Option.map_some, kept.has_name has]⟩

/-- What the pass fuses in a graph whose edges are those of the names. -/
theorem Fusion.joins {graph : Graph F} (kept : graph.Kept) (wired : graph.Wired) {target producer : NodeEntry F}
    (found : graph.nodeMap.lookup target.node.name = some target) (fusion : Fusion graph target producer) :
    ∃ output, Joins graph.Has graph.outputs producer.node.name target.node.name producer.node target.node output := by
  obtain ⟨entry, ref, here, parents, points⟩ := fusion.parent
  obtain ⟨output, written, hidden⟩ := fusion.output
  obtain ⟨held, there, single⟩ := fusion.child
  cases here.symm.trans found
  have source := has_lookup (deref_ok points).1
  have sink := has_lookup found
  have name := kept.has_name source
  rw [← name] at source
  have above : linksOf .parents graph.nodeMap target.node.name = [ref] := by
    rw [linksOf, found, Option.map_some, Option.getD_some, Side.links, parents]
  have below : linksOf .children graph.nodeMap producer.node.name = held.children := by
    rw [linksOf, there]
    rfl
  obtain ⟨_, _, feeds⟩ := (wired.mem_links kept .parents target.node.name).mp (above ▸ List.mem_cons_self)
  change Feeds _ (ref.name, target.node.name) at feeds
  rw [← name, feeds_has source sink, written] at feeds
  obtain ⟨_, member, reads⟩ := feeds
  rw [List.mem_singleton.mp member] at reads
  have read : target.node.inputs = [output] := by
    obtain ⟨input, alone⟩ := List.length_eq_one_iff.mp fusion.single
    rw [alone, List.mem_singleton] at reads
    rw [alone, reads]
  -- every reader but the producer itself is in the list of the one child
  have listed : ∀ reader node, graph.Has reader node → output ∈ node.inputs → reader ≠ producer.node.name →
      ∃ id, (⟨reader, id⟩ : NodeRef) ∈ held.children := by
    intro reader node has read different
    obtain ⟨id, pointed⟩ := pointer_has kept has
    refine ⟨id, ?_⟩
    rw [← below]
    refine (wired .children _ _).mpr ⟨reader, different, ?_, pointed⟩
    exact (feeds_has source has).mpr ⟨output, by rw [written]; exact List.mem_cons_self, read⟩
  have apart : target.node.name ≠ producer.node.name := by
    intro same
    rw [same] at sink
    cases fusion.gemm.symm.trans ((sink.unique source ▸ fusion.relu))
  obtain ⟨only, list⟩ := List.length_eq_one_iff.mp single
  have owner : ∀ reader node, graph.Has reader node → output ∈ node.inputs → reader ≠ producer.node.name →
      reader = only.name := by
    intro reader node has read different
    obtain ⟨id, member⟩ := listed reader node has read different
    rw [list] at member
    exact congrArg NodeRef.name (List.mem_singleton.mp member)
  refine ⟨output, source, fusion.gemm, written, hidden, sink, fusion.relu, read, fun writer node has writes => ?_,
    fun reader node has reading => ?_⟩
  · rw [or_iff_not_imp_left]
    intro different
    obtain ⟨id, pointed⟩ := pointer_has kept has
    have link : (⟨writer, id⟩ : NodeRef) ∈ linksOf .parents graph.nodeMap target.node.name :=
      (wired .parents _ _).mpr ⟨writer, different, (feeds_has has sink).mpr ⟨output, writes, reads⟩, pointed⟩
    rw [above, List.mem_singleton] at link
    rw [name, ← link]
  · rw [or_iff_not_imp_left]
    exact fun different => (owner reader node has reading different).trans (owner _ _ sink reads apart).symm

/-- A producer whose name was given more than once would have been joined to the `Relu` as often. -/
theorem Fusion.once {graph : Graph F} (kept : graph.Kept) (tallied : graph.Tallied) {target producer : NodeEntry F}
    (found : graph.nodeMap.lookup target.node.name = some target) (fusion : Fusion graph target producer) :
    graph.insertionOrder.count producer.node.name = 1 := by
  obtain ⟨entry, ref, here, parents, points⟩ := fusion.parent
  cases here.symm.trans found
  have above : linksOf .parents graph.nodeMap target.node.name = [ref] := by
    rw [linksOf, found, Option.map_some, Option.getD_some, Side.links, parents]
  have count := tallied .parents target.node.name ref
  rw [above, List.count_cons_self, List.count_nil] at count
  rw [kept.has_name (has_lookup (deref_ok points).1)]
  exact Nat.eq_one_of_mul_eq_one_right count.symm

/-- What the pass fuses is such a pair. -/
theorem Fusion.pair (wellFormed : model.WellFormed) {target producer : NodeEntry F}
    (found : model.graph.nodeMap.lookup target.node.name = some target) (fusion : Fusion model.graph target producer) :
    ∃ output, Pair model.graph producer.node.name target.node.name producer.node target.node output := by
  obtain ⟨output, joins⟩ := fusion.joins wellFormed.kept wellFormed.wired found
  refine ⟨output, joins.source, joins.isGemm, joins.written, joins.hidden, joins.sink, joins.isRelu, joins.read,
    fun reader node has read => (joins.readers reader node has read).resolve_left ?_⟩
  rintro rfl
  have own := has.unique joins.source
  subst own
  have kind := wellFormed.selfless _ _ joins.source output (by rw [joins.written]; exact List.mem_cons_self) read
  cases joins.isGemm.symm.trans kind

/-- The search meets no pointer that is left behind. -/
theorem fusible_ok (wellFormed : model.WellFormed) {target : NodeEntry F}
    (found : model.graph.nodeMap.lookup target.node.name = some target) :
    ∃ choice, fusible model.graph target = .ok choice := by
  have sound : Sound model.graph := ⟨wellFormed.kept, wellFormed.distinct, wellFormed.wired⟩
  have entryOf : ∀ {entry : NodeEntry F}, model.graph.nodeMap.lookup entry.node.name = some entry →
      model.graph.entryAt entry.node.name = .ok entry := by
    intro entry here
    rw [entryAt, here]
  cases made : fusible model.graph target with
  | ok choice => exact ⟨choice, rfl⟩
  | error fault =>
    exfalso
    rw [fusible] at made
    split at made
    · cases made
    rcases Lib.bind_error made with failed | ⟨entry, same, made⟩
    · cases (entryOf found).symm.trans failed
    cases (entryOf found).symm.trans same
    split at made
    next ref parents =>
      have link : ref ∈ linksOf .parents model.graph.nodeMap target.node.name := by
        rw [linksOf, found, Option.map_some, Option.getD_some, Side.links, parents]
        exact List.mem_cons_self
      obtain ⟨parent, points⟩ := (deref_iff wellFormed.kept).mpr ((sound.mem_links .parents target.node.name).mp link).1
      rcases Lib.bind_error made with failed | ⟨other, same, made⟩
      · cases points.symm.trans failed
      cases points.symm.trans same
      have held := (deref_ok points).1
      have named := wellFormed.kept.named_lookup held
      have present := entryOf (by rw [named]; exact held)
      split at made
      next output _ _ =>
        rcases Lib.bind_error made with failed | ⟨producer, same, made⟩
        · cases present.symm.trans failed
        · split at made <;> cases made
      next => cases made
    next => cases made

theorem eq_singleton_of_count {α : Type} [DecidableEq α] {items : List α} {item : α} (all : ∀ other ∈ items, other = item)
    (once : items.count item = 1) : items = [item] := by
  have shape := List.eq_replicate_of_mem all
  rw [shape, List.count_replicate_self] at once
  rw [shape, once]
  rfl

/-- One edge goes from the one node to the other. -/
theorem Joins.edge {graph : Graph F} (joins : Joins graph.Has graph.outputs producer target gemm relu output) :
    edgesBetween (stored graph.nodeMap) (producer, target) = 1 := by
  obtain ⟨_, here⟩ := joins.source
  obtain ⟨_, there⟩ := joins.sink
  simp only [edgesBetween, here, there, joins.written, joins.read]
  simp

/-- The pass finds every such pair whose producer's name was given once. -/
theorem Joins.fusible {graph : Graph F} (kept : graph.Kept) (wired : graph.Wired) (tallied : graph.Tallied)
    (joins : Joins graph.Has graph.outputs producer target gemm relu output)
    (once : graph.insertionOrder.count producer = 1) :
    ∃ first second, graph.nodeMap.lookup target = some first ∧ GraphOptimizer.fusible graph first =
      .ok (some (first, second)) := by
  have edge := joins.edge
  have apart := joins.apart fun _ _ _ => Has.unique
  obtain ⟨first, here, isFirst⟩ := has_iff.mp joins.sink
  obtain ⟨second, there, isSecond⟩ := has_iff.mp joins.source
  have firstName := kept.named_lookup here
  have secondName := kept.named_lookup there
  have firstPointer := pointer_lookup here
  have secondPointer := pointer_lookup there
  rw [NodeEntry.ref, firstName] at firstPointer
  rw [NodeEntry.ref, secondName] at secondPointer
  have parents : first.parents = [⟨producer, second.id⟩] := by
    have links : linksOf .parents graph.nodeMap target = first.parents := by rw [linksOf, here]; rfl
    rw [← links]
    refine eq_singleton_of_count (fun ref member => ?_) ?_
    · obtain ⟨pointed, different, feeds⟩ := (wired.mem_links kept .parents target).mp member
      obtain ⟨writer, _, from_, _⟩ := id feeds
      have writes : graph.Has ref.name writer.2 := ⟨writer.1, from_⟩
      obtain ⟨shared, written, read⟩ := (feeds_has writes joins.sink).mp feeds
      rw [joins.read, List.mem_singleton] at read
      subst read
      rw [(joins.writers _ _ writes written).resolve_left different, secondPointer] at pointed
      exact (Option.some.inj pointed).symm
    · rw [tallied .parents target, Side.ends, once, Nat.one_mul, due, if_pos ⟨secondPointer, apart⟩]
      exact edge
  have children : second.children = [⟨target, first.id⟩] := by
    have links : linksOf .children graph.nodeMap producer = second.children := by rw [linksOf, there]; rfl
    rw [← links]
    refine eq_singleton_of_count (fun ref member => ?_) ?_
    · obtain ⟨pointed, different, feeds⟩ := (wired.mem_links kept .children producer).mp member
      obtain ⟨_, reader, _, to_, _⟩ := id feeds
      have reads : graph.Has ref.name reader.2 := ⟨reader.1, to_⟩
      obtain ⟨shared, written, read⟩ := (feeds_has joins.source reads).mp feeds
      rw [joins.written, List.mem_singleton] at written
      subst written
      rw [(joins.readers _ _ reads read).resolve_left different, firstPointer] at pointed
      exact (Option.some.inj pointed).symm
    · rw [tallied .children producer, Side.ends, once, Nat.one_mul, due, if_pos ⟨firstPointer, apart.symm⟩]
      exact edge
  refine ⟨first, second, here, ?_⟩
  have points : graph.deref ⟨producer, second.id⟩ = .ok second := by
    rw [deref, there]
    exact if_pos rfl
  have firstEntry : graph.entryAt first.node.name = .ok first := by rw [entryAt, firstName, here]
  have secondEntry : graph.entryAt second.node.name = .ok second := by rw [entryAt, secondName, there]
  subst isFirst isSecond
  simp only [GraphOptimizer.fusible, bind, Except.bind, firstEntry, parents, points, joins.isRelu, joins.read,
    joins.isGemm, joins.written,
    secondEntry, children, List.length_singleton, ne_eq, not_true_eq_false, joins.hidden, or_self, if_false]

theorem Pair.joins (wellFormed : model.WellFormed) (pair : Pair model.graph producer target gemm relu output) :
    Joins model.graph.Has model.graph.outputs producer target gemm relu output := by
  refine ⟨pair.source, pair.isGemm, pair.written, pair.hidden, pair.sink, pair.isRelu, pair.read,
    fun name node has writes => .inr ?_, fun name node has reads => .inr (pair.alone name node has reads)⟩
  exact wellFormed.once.nodes _ _ _ _ has pair.source _ writes (by rw [pair.written]; exact List.mem_cons_self)

/-- The pass finds every such pair. -/
theorem Pair.fusible (wellFormed : model.WellFormed) (counted : model.graph.Counted)
    (pair : Pair model.graph producer target gemm relu output) :
    ∃ first second, model.graph.nodeMap.lookup target = some first ∧ GraphOptimizer.fusible model.graph first =
      .ok (some (first, second)) := by
  refine (pair.joins wellFormed).fusible wellFormed.kept wellFormed.wired
    (counted.tallied wellFormed.kept wellFormed.distinct) ?_
  exact List.count_eq_one_of_mem wellFormed.distinct ((wellFormed.kept.listed _).mpr pair.source.mem)

end Pairs
end FromScratch.Inference.GraphOptimizer
