import FromScratch.Proofs.SessionSchedule
import FromScratch.Proofs.Sketches

/-! Runs of a prepared session. What a run returns is settled by the request and
the initializers: it is found in the fixed point of the nodes, which no earlier
run and no order of the nodes of a level can change. -/

namespace FromScratch.Inference
open Lib (FiniteMap)
open Lib.Dataflow (Legal Runs Solves Writes)

/-- The session runs the graph of a model that the optimizer has made of the one it was given. -/
theorem prepare_sound {F : Type} [Scalar F] {config : SessionConfig} {platform : Platform F}
    {initializers : FiniteMap.Traversal Text (Tensor F)} {provider : Provider} {model : Model F} (kept : model.graph.Kept)
    {session : Session F} {slots : Slots F}
    (prepared : InferenceSession.prepare config platform initializers provider model = .ok (session, slots)) :
    ∃ ready, Relation.ReflTransGen (GraphOptimizer.Rewrite provider) model ready ∧
      InferenceSession.Scheduled ready session slots := by
  obtain ⟨_, _, made⟩ := Lib.bind_ok prepared
  split at made
  · obtain ⟨⟨ready, report⟩, ran, scheduled⟩ := Lib.bind_ok made
    exact ⟨ready, GraphOptimizer.run_rewrites kept ran, (InferenceSession.schedule_sound scheduled).1⟩
  · exact ⟨model, .refl, (InferenceSession.schedule_sound made).1⟩

/-- A model whose nodes have names of their own, define each tensor once and do
not read what they write. -/
theorem Model.Assembled.wellFormed {F : Type} {model : Model F} (assembled : model.Assembled)
    (distinct : model.graph.insertionOrder.Nodup) (once : model.DefinedOnce)
    (selfless : ∀ name node, model.graph.Has name node → ∀ output ∈ node.outputs, output ∉ node.inputs) :
    model.WellFormed where
  kept := assembled.kept
  distinct := distinct
  wired := assembled.wired distinct
  once := once
  selfless name node has output written read := absurd read (selfless name node has output written)

theorem Model.WellFormed.rewrites {F : Type} [Scalar F] {provider : Provider} {model result : Model F}
    (wellFormed : model.WellFormed)
    (rewrites : Relation.ReflTransGen (GraphOptimizer.Rewrite provider) model result) : result.WellFormed := by
  induction rewrites with
  | refl => exact wellFormed
  | tail _ step ih => exact step.wellFormed ih

namespace InferenceSession
variable {F : Type} [Scalar F] {provider : Provider} {model : Model F} {session : Session F} {slots tensors after : Slots F}
  {parallel : Bool} {call : Call F} {input : Tensor F}

/-- The slots of the session between two runs: those that nobody writes are as
`prepare` left them. -/
structure Settled (model : Model F) (session : Session F) (slots tensors : Slots F) : Prop where
  keys : SameKeys slots tensors
  kept : ∀ name, name ≠ session.inputName → (∀ ref ∈ session.order, output (nodeAt model.graph ref) ≠ name) →
    view tensors name = view slots name

omit [Scalar F] in
theorem Settled.start : Settled model session slots slots := ⟨fun _ => Iff.rfl, fun _ _ _ => rfl⟩

omit [Scalar F] in
theorem settled_either (parallel : Bool) :
    Settled model { session with parallel } slots tensors ↔ Settled model session slots tensors :=
  ⟨fun settled => ⟨settled.keys, settled.kept⟩, fun settled => ⟨settled.keys, settled.kept⟩⟩

/-- What the nodes start from. -/
def given (session : Session F) (input : Tensor F) (tensors : Slots F) : Text → Tensor F :=
  Function.update (view tensors) session.inputName input

omit [Scalar F] in
/-- Two runs of a request start from the same, as far as nobody writes it. -/
theorem given_agree {start : Slots F} (first : Settled model session slots tensors)
    (second : Settled model session slots start)
    {name : Text} (outside : ¬∃ ref ∈ session.order, output (nodeAt model.graph ref) = name) :
    given session input tensors name = given session input start name := by
  by_cases same : name = session.inputName
  · have requested : ∀ held : Slots F, given session input held name = input := by
      intro held
      rw [given, same, Function.update_self]
    rw [requested, requested]
  · have kept : ∀ {held : Slots F}, Settled model session slots held → given session input held name = view slots name := by
      intro held settled
      rw [given, Function.update_of_ne same]
      exact settled.kept name same fun ref member written => outside ⟨ref, member, written⟩
    rw [kept first, kept second]

theorem placeInput_eq (present : session.inputName ∈ tensors) :
    placeInput session input tensors = .ok (tensors.insert session.inputName input) := by
  rw [placeInput, slot_eq present]
  by_cases same : (view tensors session.inputName).shape = input.shape
  · refine (if_neg (not_not.mpr same)).trans ?_
    change ((view tensors session.inputName).copyFrom input.data >>= fun held => _) = _
    rw [Tensor.copyFrom_full same]
    rfl
  · obtain ⟨made, fresh⟩ := Tensor.filled_shape input Scalar.zero
    refine (if_pos same).trans ?_
    rw [fresh]
    change (made.copyFrom input.data >>= fun held => _) = _
    rw [Tensor.copyFrom_full (Tensor.filled_ok fresh).1]
    rfl

namespace Scheduled

omit [Scalar F] in
theorem input_mem (scheduled : Scheduled model session slots) (settled : Settled model session slots tensors) :
    session.inputName ∈ tensors :=
  (settled.keys _).mpr ((scheduled.keys _).mpr (.inr (.inl rfl)))

/-- A run, from where the request is in its slot. -/
theorem run_eq (scheduled : Scheduled model session slots) (settled : Settled model session slots tensors)
    (nonempty : input.size ≠ 0) : run provider session call input tensors =
      (executeLevels provider model.graph call (levelsOf session) (tensors.insert session.inputName input) >>= fun reached =>
        match reached with
        | (tensors, some fault) => pure (tensors, .error fault)
        | (tensors, none) => do
          let output ← slot tensors session.outputName
          pure (tensors, .ok output)) := by
  rw [run, if_neg nonempty, placeInput_eq (scheduled.input_mem settled), scheduled.graph]
  rfl

omit [Scalar F] in
/-- The slots when the request is in place. -/
theorem placed (scheduled : Scheduled model session slots) (settled : Settled model session slots tensors)
    (input : Tensor F) :
    SameKeys slots (tensors.insert session.inputName input) ∧
      view (tensors.insert session.inputName input) = given session input tensors :=
  ⟨fun name => (mem_insert_present (scheduled.input_mem settled) input name).trans (settled.keys name), view_insert input⟩

omit [Scalar F] in
theorem ready_levels (scheduled : Scheduled model session slots) (keys : SameKeys slots tensors) :
    ∀ ref ∈ (levelsOf session).flatten, Ready model.graph tensors ref :=
  fun ref member => scheduled.ready keys ref ((scheduled.mem_levels session.parallel ref).mp member)

/-- The nodes write their outputs. -/
theorem writes_levels (scheduled : Scheduled model session slots) (provider : Provider) (name : Text) :
    Writes (tasks provider model.graph) (levelsOf session).flatten name ↔
      ∃ ref ∈ session.order, output (nodeAt model.graph ref) = name := by
  refine exists_congr fun ref => ?_
  rw [tasks, task_write, show ref ∈ (levelsOf session).flatten ↔ _ from scheduled.mem_levels session.parallel ref]

/-- A run leaves alone what nobody writes. -/
theorem run_settled (scheduled : Scheduled model session slots) (settled : Settled model session slots tensors)
    {answer : Except Fault (Tensor F)}
    (ran : run provider session call input tensors = .ok (after, answer)) : Settled model session slots after := by
  by_cases empty : input.size = 0
  · rw [run, if_pos empty] at ran
    cases ran
    exact settled
  · rw [scheduled.run_eq settled empty] at ran
    obtain ⟨keys, here⟩ := scheduled.placed settled input
    obtain ⟨⟨reached, outcome⟩, executed, ran⟩ := Lib.bind_ok ran
    obtain ⟨same, frame⟩ := executeLevels_frame (scheduled.ready_levels keys) executed
    have final : reached = after := by
      cases outcome with
      | some fault =>
        cases ran
        rfl
      | none =>
        obtain ⟨output, _, last⟩ := Lib.bind_ok ran
        cases last
        rfl
    subst final
    refine ⟨fun name => (same name).trans (keys name), fun name apart unwritten => ?_⟩
    have outside : ¬Writes (tasks provider model.graph) (levelsOf session).flatten name := by
      rw [scheduled.writes_levels]
      rintro ⟨ref, member, written⟩
      exact unwritten ref member written
    rw [frame name outside, here, given, Function.update_of_ne apart, settled.kept name apart unwritten]

theorem serve_settled (scheduled : Scheduled model session slots) (settled : Settled model session slots tensors)
    {requests : List (Call F × Tensor F)} {answers : List (Except Fault (Tensor F))}
    (served : serve provider session requests tensors = .ok (after, answers)) : Settled model session slots after := by
  induction requests generalizing tensors answers with
  | nil =>
    cases served
    exact settled
  | cons request requests ih =>
    obtain ⟨⟨reached, answer⟩, ran, rest⟩ := Lib.bind_ok served
    obtain ⟨⟨last, later⟩, others, done⟩ := Lib.bind_ok rest
    cases done
    exact ih (scheduled.run_settled settled ran) others

theorem run_returns (scheduled : Scheduled model session slots) (sequential : model.Sequential)
    (settled : Settled model session slots tensors) {result : Tensor F}
    (ran : run provider session call input tensors = .ok (after, .ok result)) :
    input.size ≠ 0 ∧ Runs (tasks provider model.graph) (levelsOf session) (given session input tensors) (view after) ∧
      result = view after session.outputName := by
  by_cases empty : input.size = 0
  · rw [run, if_pos empty] at ran
    cases ran
  · refine ⟨empty, ?_⟩
    rw [scheduled.run_eq settled empty] at ran
    obtain ⟨keys, here⟩ := scheduled.placed settled input
    obtain ⟨⟨reached, outcome⟩, executed, ran⟩ := Lib.bind_ok ran
    cases outcome with
    | some fault => cases ran
    | none =>
      have ready := scheduled.ready_levels keys
      have same := (executeLevels_frame ready executed).1
      have produced : session.outputName ∈ reached := (same _).mpr ((keys _).mpr scheduled.produced)
      change (slot reached session.outputName >>= fun output => _) = _ at ran
      rw [slot_eq produced] at ran
      cases ran
      refine ⟨?_, rfl⟩
      rw [← here]
      exact runs_of_executeLevels (scheduled.legal sequential session.parallel) ready executed

theorem run_of_runs (scheduled : Scheduled model session slots) (sequential : model.Sequential)
    (settled : Settled model session slots tensors) (nonempty : input.size ≠ 0) {store : Text → Tensor F}
    (runs : Runs (tasks provider model.graph) (levelsOf session) (given session input tensors) store) :
    ∃ after, run provider session call input tensors = .ok (after, .ok (store session.outputName)) ∧ view after = store := by
  obtain ⟨keys, here⟩ := scheduled.placed settled input
  have ready := scheduled.ready_levels keys
  rw [← here] at runs
  obtain ⟨after, executed, rfl⟩ :=
    @executeLevels_of_runs F _ provider model.graph call _ _ (scheduled.legal sequential session.parallel) ready _ runs
  refine ⟨after, ?_, rfl⟩
  have produced : session.outputName ∈ after :=
    ((executeLevels_frame ready executed).1 _).mpr ((keys _).mpr scheduled.produced)
  rw [scheduled.run_eq settled nonempty, executed]
  change (slot after session.outputName >>= fun output => _) = _
  rw [slot_eq produced]
  rfl

omit [Scalar F] in
theorem either (scheduled : Scheduled model session slots) (parallel : Bool) :
    Scheduled model { session with parallel } slots :=
  ⟨scheduled.graph, scheduled.firstInput, scheduled.firstOutput, scheduled.sorted, scheduled.levelled, scheduled.checked,
    scheduled.keys, scheduled.held, scheduled.reads, scheduled.produced⟩

/-- A run that returns does so whatever the earlier runs were, in whatever order
the nodes of a level are taken, and leaves the same in the slots. -/
theorem same_run (scheduled : Scheduled model session slots) (sequential : model.Sequential) {start : Slots F}
    (first : Settled model session slots tensors) (second : Settled model session slots start) {one : Bool}
    {result : Tensor F}
    (ran : run provider { session with parallel := one } call input tensors = .ok (after, .ok result)) (other : Bool)
    (again : Call F) :
    ∃ final, run provider { session with parallel := other } again input start = .ok (final, .ok result) ∧
      view final = view after := by
  obtain ⟨nonempty, runs, rfl⟩ := (scheduled.either one).run_returns sequential ((settled_either one).mpr first) ran
  have solves := Lib.Dataflow.solves_of_runs (scheduled.legal sequential one) runs
  have both : ∀ ref, ref ∈ (levelsOf { session with parallel := one }).flatten ↔
      ref ∈ (levelsOf { session with parallel := other }).flatten :=
    fun ref => (scheduled.mem_levels one ref).trans (scheduled.mem_levels other ref).symm
  refine (scheduled.either other).run_of_runs sequential ((settled_either other).mpr second) nonempty ?_
  refine Lib.Dataflow.runs_of_solves (scheduled.legal sequential other) (solves.of_mem both) fun name outside => ?_
  rw [solves.frame name fun written => outside ?_]
  · rw [(scheduled.either other).writes_levels] at outside
    exact given_agree second first outside
  · obtain ⟨ref, member, same⟩ := written
    exact ⟨ref, (both ref).mp member, same⟩

end Scheduled

omit [Scalar F] in
theorem lookup_eq_of_view (first : SameKeys slots tensors) (second : SameKeys slots after) (same : view after = view tensors)
    (name : Text) : after.lookup name = tensors.lookup name := by
  by_cases present : name ∈ slots
  · rw [lookup_view ((second name).mpr present), lookup_view ((first name).mpr present), same]
  · rw [AList.lookup_eq_none.mpr (mt (second name).mp present), AList.lookup_eq_none.mpr (mt (first name).mp present)]

/-- A sequence of runs, all of which return. -/
theorem serve_levels (scheduled : Scheduled model session slots) (sequential : model.Sequential)
    {requests others : List (Call F × Tensor F)} (same : requests.map Prod.snd = others.map Prod.snd) {last start : Slots F}
    (first : Settled model session slots tensors) (second : Settled model session slots start)
    (views : view start = view tensors)
    {answers : List (Except Fault (Tensor F))} (returned : ∀ answer ∈ answers, ∃ result, answer = .ok result)
    (served : serve provider { session with parallel := false } requests tensors = .ok (last, answers)) :
    ∃ final, serve provider { session with parallel := true } others start = .ok (final, answers) ∧
      ∀ name, final.lookup name = last.lookup name := by
  induction requests generalizing others tensors start answers with
  | nil =>
    obtain rfl : others = [] := List.map_eq_nil_iff.mp same.symm
    cases served
    exact ⟨start, rfl, lookup_eq_of_view first.keys second.keys views⟩
  | cons request requests ih =>
    obtain ⟨other, others, rfl⟩ : ∃ other rest, others = other :: rest := by
      cases others with
      | nil => cases same
      | cons other rest => exact ⟨other, rest, rfl⟩
    rw [List.map_cons, List.map_cons, List.cons.injEq] at same
    obtain ⟨⟨reached, answer⟩, ran, rest⟩ := Lib.bind_ok served
    obtain ⟨⟨finished, later⟩, following, done⟩ := Lib.bind_ok rest
    cases done
    obtain ⟨result, rfl⟩ := returned answer List.mem_cons_self
    obtain ⟨final, again, viewed⟩ := scheduled.same_run sequential first second ran true other.1
    have settled := (settled_either false).mp ((scheduled.either false).run_settled ((settled_either false).mpr first) ran)
    have settledAgain := (settled_either true).mp
      ((scheduled.either true).run_settled ((settled_either true).mpr second) again)
    obtain ⟨last, others, equal⟩ := ih same.2 settled settledAgain viewed
      (fun answer member => returned answer (List.mem_cons_of_mem _ member)) following
    refine ⟨last, ?_, equal⟩
    rw [serve, ← same.1, again]
    change (serve provider _ _ final >>= fun _ => _) = _
    rw [others]
    rfl

end InferenceSession

/-- The levels one after the other, each in any order, leave every slot and every
answer as the nodes of the topological order do. -/
theorem InferenceSession.levels_match_order {F : Type} [Scalar F] {model : Model F} (assembled : model.Assembled)
    (distinct : model.graph.insertionOrder.Nodup) (once : model.DefinedOnce)
    (selfless : ∀ name node, model.graph.Has name node → ∀ output ∈ node.outputs, output ∉ node.inputs)
    {config : SessionConfig} {platform : Platform F} {initializers : FiniteMap.Traversal Text (Tensor F)}
    {provider : Provider}
    {session : Session F} {slots : Slots F}
    (prepared : prepare config platform initializers provider model = .ok (session, slots))
    {requests others : List (Call F × Tensor F)} (same : requests.map Prod.snd = others.map Prod.snd) {last : Slots F}
    {answers : List (Except Fault (Tensor F))} (returned : ∀ answer ∈ answers, ∃ result, answer = .ok result)
    (sequential : serve provider { session with parallel := false } requests slots = .ok (last, answers)) :
    ∃ final, serve provider { session with parallel := true } others slots = .ok (final, answers) ∧
      ∀ name, final.lookup name = last.lookup name := by
  obtain ⟨ready, rewrites, scheduled⟩ := prepare_sound assembled.kept prepared
  have wellFormed := (assembled.wellFormed distinct once selfless).rewrites rewrites
  exact serve_levels scheduled wellFormed.sequential same Settled.start Settled.start rfl returned sequential

section SideBySide

/-- Two nodes that read the request. -/
def sideBySideNodes : Graph ℚ :=
  (({} : Graph ℚ).addNode .kept (Node.make (text "f") (text "Flatten") [text "x"] [text "y"] ∅)).addNode .kept
    (Node.make (text "r") (text "Relu") [text "x"] [text "z"] ∅)

def sideBySide : Model ℚ where
  graph := { sideBySideNodes with inputs := [text "x"], outputs := [text "y"] }

def plainCall : InferenceSession.Call ℚ := ⟨id, fun _ => .refl _, fun _ => ⟨none, fun _ => ⟨[], []⟩⟩⟩

def sideBySideSketch : ModelSketch where
  nodes := [⟨"f", "Flatten", ["x"], ["y"]⟩, ⟨"r", "Relu", ["x"], ["z"]⟩]
  initializers := []
  inputs := ["x"]
  outputs := ["y"]

theorem sideBySide_sketched : sideBySideSketch.model = sideBySide := rfl

theorem sideBySide_assembled : sideBySide.Assembled := ModelSketch.assembled sideBySideSketch

theorem sideBySide_once : sideBySide.DefinedOnce := by
  rw [← sideBySide_sketched]
  exact ModelSketch.definedOnce (by decide +kernel)

theorem sideBySide_selfless : ∀ name node, sideBySide.graph.Has name node →
    ∀ output ∈ node.outputs, output ∉ node.inputs := by
  rw [← sideBySide_sketched]
  exact ModelSketch.selfless (by decide +kernel)

theorem levels_match_order_sideBySide : ∃ session slots last final result,
    InferenceSession.prepare ⟨false, true⟩ plainPlatform .kept ⟨.auto⟩ sideBySide = .ok (session, slots) ∧
      InferenceSession.serve ⟨.auto⟩ { session with parallel := false } [(plainCall, unitTensor)] slots =
        .ok (last, [.ok result]) ∧
      InferenceSession.serve ⟨.auto⟩ { session with parallel := true } [(plainCall, unitTensor)] slots =
        .ok (final, [.ok result]) ∧
      ∀ name, final.lookup name = last.lookup name := by
  obtain ⟨session, slots, last, result, prepared, served⟩ : ∃ session slots last result,
      InferenceSession.prepare ⟨false, true⟩ plainPlatform .kept ⟨.auto⟩ sideBySide = .ok (session, slots) ∧
        InferenceSession.serve ⟨.auto⟩ { session with parallel := false } [(plainCall, unitTensor)] slots =
          .ok (last, [.ok result]) := ⟨_, _, _, _, rfl, rfl⟩
  have returned : ∀ answer ∈ [Except.ok result], ∃ value : Tensor ℚ, answer = (.ok value : Except Fault (Tensor ℚ)) :=
    fun answer member => ⟨result, List.mem_singleton.mp member⟩
  obtain ⟨final, levels, same⟩ := InferenceSession.levels_match_order sideBySide_assembled (by decide) sideBySide_once
    sideBySide_selfless prepared rfl returned served
  exact ⟨session, slots, last, final, result, prepared, served, levels, same⟩

end SideBySide
end FromScratch.Inference
