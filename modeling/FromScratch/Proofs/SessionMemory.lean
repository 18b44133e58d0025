import FromScratch.Proofs.SessionRuns

/-! What a session remembers. A request is answered alike after any two histories
if the nodes it reaches stay inside their buffers, and only then: on a fresh
session a node that does not is undefined. -/

namespace FromScratch.Inference
open Lib (FiniteMap)
open Lib.Dataflow (Legal Runs Throughout)

namespace InferenceSession
variable {F : Type} [Scalar F] {provider : Provider} {model : Model F} {session : Session F} {slots tensors after : Slots F}
  {call again : Call F} {input : Tensor F}

/-- Both runs return the same tensor, or both throw. -/
def SameAnswer (first second : Except Fault (Slots F × Except Fault (Tensor F))) : Prop :=
  (∃ left right result, first = .ok (left, .ok result) ∧ second = .ok (right, .ok result)) ∨
    ∃ left right fault other, first = .ok (left, .error fault) ∧ second = .ok (right, .error other)

/-- The answer to a request is the same after any two histories. -/
def Forgets (provider : Provider) (session : Session F) (slots : Slots F) (input : Tensor F) : Prop :=
  ∀ earlier others left right answers replies, serve provider session earlier slots = .ok (left, answers) →
    serve provider session others slots = .ok (right, replies) → ∀ call again : Call F,
      SameAnswer (run provider session call input left) (run provider session again input right)

namespace Scheduled

/-- The nodes of a run read the same whatever the history, as long as nobody has written it. -/
theorem tame_settled (scheduled : Scheduled model session slots) (wellFormed : model.WellFormed)
    (settled : Settled model session slots tensors)
    (tame : Tame provider model.graph (levelsOf session) (given session input slots)) :
    Tame provider model.graph (levelsOf session) (given session input tensors) := by
  refine Throughout.congr (scheduled.legal wellFormed.sequential session.parallel) tame fun name outside => ?_
  rw [scheduled.writes_levels] at outside
  exact given_agree Settled.start settled outside

theorem run_tame (scheduled : Scheduled model session slots) (wellFormed : model.WellFormed)
    (settled : Settled model session slots tensors) (nonempty : input.size ≠ 0)
    (tame : Tame provider model.graph (levelsOf session) (given session input slots)) :
    ∃ after answer, run provider session call input tensors = .ok (after, answer) := by
  obtain ⟨keys, here⟩ := scheduled.placed settled input
  have ready := scheduled.ready_levels keys
  have inside := scheduled.tame_settled wellFormed settled tame
  rw [← here] at inside
  obtain ⟨reached, outcome, executed⟩ :=
    @executeLevels_tame F _ provider model.graph call _ _
      (scheduled.legal wellFormed.sequential session.parallel) ready inside
  rw [scheduled.run_eq settled nonempty, executed]
  cases outcome with
  | some fault => exact ⟨reached, .error fault, rfl⟩
  | none =>
    have produced : session.outputName ∈ reached :=
      ((executeLevels_frame ready executed).1 _).mpr ((keys _).mpr scheduled.produced)
    refine ⟨reached, .ok (view reached session.outputName), ?_⟩
    change (slot reached session.outputName >>= fun output => _) = _
    rw [slot_eq produced]
    rfl

/-- The buffers of the outputs are new. -/
theorem fresh_outputs (scheduled : Scheduled model session slots) (wellFormed : model.WellFormed) (input : Tensor F) :
    ∀ ref ∈ (levelsOf session).flatten,
      given session input slots (tasks provider model.graph ref).write = Tensor.empty := by
  intro ref member
  have listed := (scheduled.mem_levels session.parallel ref).mp member
  obtain ⟨entry, here⟩ := (Graph.topologicalSort_sound scheduled.sorted).1.live listed
  obtain ⟨name, single⟩ := scheduled.single ref listed
  have written : name ∈ (nodeAt model.graph ref).outputs := by
    rw [single]
    exact List.mem_cons_self
  obtain ⟨notInput, notInitializer⟩ := wellFormed.once.outputs _ _ (has_nodeAt here) name written
  have different : name ≠ session.inputName := by
    rintro rfl
    exact notInput (List.mem_of_head? scheduled.firstInput)
  rw [tasks, task_write, output, single, List.headD_cons, given, Function.update_of_ne different, scheduled.held,
    AList.lookup_eq_none.mpr notInitializer]
  rfl

theorem run_astray (scheduled : Scheduled model session slots) (wellFormed : model.WellFormed) (nonempty : input.size ≠ 0)
    (astray : ¬Tame provider model.graph (levelsOf session) (given session input slots)) :
    ∃ fault, run provider session call input slots = .error fault := by
  obtain ⟨keys, here⟩ := scheduled.placed Settled.start input
  have fresh := @fresh_outputs F _ provider model session slots scheduled wellFormed input
  rw [← here] at astray fresh
  obtain ⟨fault, failed⟩ := @executeLevels_astray F _ provider model.graph call _ _
    (scheduled.legal wellFormed.sequential session.parallel) (scheduled.ready_levels keys) fresh astray
  exact ⟨fault, by rw [scheduled.run_eq Settled.start nonempty, failed]; rfl⟩

theorem forgets_iff (scheduled : Scheduled model session slots) (wellFormed : model.WellFormed) :
    Forgets provider session slots input ↔
      input.size = 0 ∨ Tame provider model.graph (levelsOf session) (given session input slots) := by
  constructor
  · intro forgets
    by_contra neither
    obtain ⟨nonempty, astray⟩ := not_or.mp neither
    let alone : Call F := ⟨id, fun _ => .refl _, fun _ => ⟨none, fun _ => ⟨[], []⟩⟩⟩
    obtain ⟨fault, failed⟩ := @run_astray F _ provider model session slots alone input scheduled wellFormed nonempty astray
    rcases forgets [] [] slots slots [] [] rfl rfl alone alone with ⟨_, _, _, ran, _⟩ | ⟨_, _, _, _, ran, _⟩
    · cases failed.symm.trans ran
    · cases failed.symm.trans ran
  · rintro condition earlier others left right answers replies first second call again
    have before := scheduled.serve_settled Settled.start first
    have prior := scheduled.serve_settled Settled.start second
    rcases condition with empty | tame
    · exact .inr ⟨left, right, _, _, if_pos empty, if_pos empty⟩
    · by_cases empty : input.size = 0
      · exact .inr ⟨left, right, _, _, if_pos empty, if_pos empty⟩
      obtain ⟨reached, answer, ran⟩ :=
        @run_tame F _ provider model session slots left call input scheduled wellFormed before empty tame
      obtain ⟨found, reply, runs⟩ :=
        @run_tame F _ provider model session slots right again input scheduled wellFormed prior empty tame
      cases answer with
      | ok result =>
        obtain ⟨final, same, _⟩ := scheduled.same_run wellFormed.sequential before prior ran session.parallel again
        exact .inl ⟨reached, final, result, ran, same⟩
      | error fault =>
        cases reply with
        | ok result =>
          obtain ⟨final, same, _⟩ := scheduled.same_run wellFormed.sequential prior before runs session.parallel call
          cases ran.symm.trans same
        | error other => exact .inr ⟨reached, found, fault, other, ran, runs⟩

end Scheduled

/-- A prepared session forgets the requests before one exactly if no node that it
reaches leaves its buffers. -/
theorem forgets_iff_tame {F : Type} [Scalar F] {model : Model F} (assembled : model.Assembled)
    (distinct : model.graph.insertionOrder.Nodup) (once : model.DefinedOnce)
    (selfless : ∀ name node, model.graph.Has name node → ∀ output ∈ node.outputs, output ∉ node.inputs)
    {config : SessionConfig} {platform : Platform F} {initializers : FiniteMap.Traversal Text (Tensor F)}
    {provider : Provider}
    {session : Session F} {slots : Slots F}
    (prepared : prepare config platform initializers provider model = .ok (session, slots)) (input : Tensor F) :
    Forgets provider session slots input ↔
      input.size = 0 ∨ Tame provider session.graph (levelsOf session) (given session input slots) := by
  obtain ⟨ready, rewrites, scheduled⟩ := prepare_sound assembled.kept prepared
  rw [scheduled.graph]
  exact scheduled.forgets_iff ((assembled.wellFormed distinct once selfless).rewrites rewrites)

/-- A request of one element stays inside the buffers of a session that has one level. -/
theorem forgets_iff_tame_sideBySide : ∃ session slots,
    prepare ⟨false, true⟩ plainPlatform .kept ⟨.auto⟩ sideBySide = .ok (session, slots) ∧
      Forgets ⟨.auto⟩ session slots unitTensor := by
  obtain ⟨session, slots, first, second, prepared, levels, clips, flattens, placed⟩ : ∃ session slots first second,
      prepare ⟨false, true⟩ plainPlatform .kept ⟨.auto⟩ sideBySide = .ok (session, slots) ∧
        levelsOf session = [[first, second]] ∧
        nodeAt session.graph first = Node.make (text "r") (text "Relu") [text "x"] [text "z"] ∅ ∧
        nodeAt session.graph second = Node.make (text "f") (text "Flatten") [text "x"] [text "y"] ∅ ∧
        given session unitTensor slots (text "x") = unitTensor := ⟨_, _, _, _, rfl, rfl, rfl, rfl, rfl⟩
  refine ⟨session, slots, prepared, ?_⟩
  refine (forgets_iff_tame sideBySide_assembled (by decide) sideBySide_once sideBySide_selfless prepared _).mpr (.inr ?_)
  rw [levels]
  refine ⟨fun ref member => ?_, fun _ _ => trivial⟩
  rcases List.mem_pair.mp member with rfl | rfl
  · have read : (tasks ⟨.auto⟩ session.graph ref).reads = [text "x"] := by rw [tasks, clips]; rfl
    rw [read, List.map_singleton, placed, clips]
    exact ⟨by decide, denote_inside rfl⟩
  · have read : (tasks ⟨.auto⟩ session.graph ref).reads = [text "x"] := by rw [tasks, flattens]; rfl
    rw [read, List.map_singleton, placed, flattens]
    exact ⟨by decide, denote_inside rfl⟩

/-- A shape whose element count wraps round to one. -/
def wrappedTensor : Tensor ℚ := ⟨[3, 0xAAAAAAAAAAAAAAAB], [1], by decide, one_fits⟩

/-- On a fresh session the output is made for no element and one is copied into
it; after another request its buffer has room for one, and the kernel throws. -/
theorem sideBySide_remembers :
    (sideBySide.Assembled ∧ sideBySide.graph.insertionOrder.Nodup ∧ sideBySide.DefinedOnce ∧
      ∀ name node, sideBySide.graph.Has name node → ∀ output ∈ node.outputs, output ∉ node.inputs) ∧
    ∃ session slots, prepare ⟨false, false⟩ plainPlatform .kept ⟨.auto⟩ sideBySide = .ok (session, slots) ∧
      run ⟨.auto⟩ session plainCall wrappedTensor slots = .error .undefined ∧
      (∃ left result after fault, serve ⟨.auto⟩ session [(plainCall, unitTensor)] slots = .ok (left, [.ok result]) ∧
        run ⟨.auto⟩ session plainCall wrappedTensor left = .ok (after, .error (.invalidArgument fault))) ∧
      ¬Forgets ⟨.auto⟩ session slots wrappedTensor := by
  refine ⟨⟨sideBySide_assembled, by decide, sideBySide_once, sideBySide_selfless⟩, ?_⟩
  obtain ⟨session, slots, left, result, after, fault, prepared, fresh, served,
    later⟩ : ∃ session slots left result after fault,
      prepare ⟨false, false⟩ plainPlatform .kept ⟨.auto⟩ sideBySide = .ok (session, slots) ∧
        run ⟨.auto⟩ session plainCall wrappedTensor slots = .error .undefined ∧
        serve ⟨.auto⟩ session [(plainCall, unitTensor)] slots = .ok (left, [.ok result]) ∧
        run ⟨.auto⟩ session plainCall wrappedTensor left = .ok (after, .error (.invalidArgument fault)) :=
    ⟨_, _, _, _, _, _, rfl, rfl, rfl, rfl⟩
  refine ⟨session, slots, prepared, fresh, ⟨left, result, after, fault, served, later⟩, fun forgets => ?_⟩
  rcases forgets [] [(plainCall, unitTensor)] slots left [] _ rfl served plainCall plainCall with
    ⟨_, _, _, ran, _⟩ | ⟨_, _, _, _, ran, _⟩
  · cases fresh.symm.trans ran
  · cases fresh.symm.trans ran

end InferenceSession
end FromScratch.Inference
