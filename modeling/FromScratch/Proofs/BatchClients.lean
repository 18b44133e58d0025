import FromScratch.Proofs.BatchInvariance
import FromScratch.Proofs.OptimizerFixpoint

/-! The clients of the dynamic batcher. A request that was answered is answered what it
would have been answered in a batch of its own. -/

namespace FromScratch.Inference
open Lib (FiniteMap)
open Lib.Rows (joined)
open InferenceSession (Call)

namespace InferenceEngine

variable {maxBatch : UInt64} {provider : Provider} {session : Session ℚ} {slots : Slots ℚ} {config : BatcherConfig}

/-- The slots as some requests have left them. -/
def Reached (provider : Provider) (session : Session ℚ) (slots tensors : Slots ℚ) : Prop :=
  ∃ earlier answers, InferenceSession.serve provider session earlier slots = .ok (tensors, answers)

/-- A batch is answered, row by row, what its rows are answered. -/
def RowByRow (maxBatch : UInt64) (provider : Provider) (session : Session ℚ) (slots : Slots ℚ) : Prop :=
  ∀ (n : UInt64) (batch : Tensor ℚ) (row : Nat → Tensor ℚ), 0 < n.toNat → n ≤ maxBatch → Stacked n batch row →
    ∀ call tensors after result, Reached provider session slots tensors →
      inferBatch maxBatch provider session call batch tensors = .ok (after, .ok result) →
        ∃ answers, Stacked n result answers ∧ ∀ i, i < n.toNat → ∀ again start, Reached provider session slots start →
          ∃ last, inferBatch maxBatch provider session again (row i) start = .ok (last, .ok (answers i))

/-- The tensors a call leaves have room for as many rows. -/
def Roomy (count : Nat) (tensors : Slots ℚ) : Prop :=
  ∀ name tensor, tensors.lookup name = some tensor → count * tensor.data.length * 4 < 2 ^ 64

/-- A batch is answered if one of its rows is. -/
def Together (maxBatch : UInt64) (provider : Provider) (session : Session ℚ) (slots : Slots ℚ) : Prop :=
  ∀ (n : UInt64) (batch : Tensor ℚ) (row : Nat → Tensor ℚ), 0 < n.toNat → n ≤ maxBatch → Stacked n batch row →
    ∀ i, i < n.toNat → ∀ call tensors after result, Reached provider session slots tensors →
      inferBatch maxBatch provider session call (row i) tensors = .ok (after, .ok result) → Roomy n.toNat after →
        ∀ again start, Reached provider session slots start →
          ∃ last answer, inferBatch maxBatch provider session again batch start = .ok (last, .ok answer)

/-- What a request is answered in a batch of its own. -/
def Alone (config : BatcherConfig) (maxBatch : UInt64) (provider : Provider) (session : Session ℚ) (slots : Slots ℚ)
    (features values : List ℚ) : Prop :=
  ∃ input, Batcher.packBatch config [⟨0, features⟩] = .ok input ∧ ∀ call tensors, Reached provider session slots tensors →
    ∃ after returned, inferBatch maxBatch provider session call input tensors = .ok (after, .ok returned) ∧
      Batcher.sliceBatch 1 returned = .ok [values]

section Engine
variable {model : Model ℚ} {varies : Text → Prop} {rank : Text → ℕ} {whole : Prop}

theorem reached_settled (scheduled : InferenceSession.Scheduled model session slots) {tensors : Slots ℚ}
    (reached : Reached provider session slots tensors) : InferenceSession.Settled model session slots tensors := by
  obtain ⟨earlier, answers, served⟩ := reached
  exact scheduled.serve_settled .start served

theorem one_le {n : UInt64} (fed : 0 < n.toNat) (few : n ≤ maxBatch) : 1 ≤ maxBatch :=
  UInt64.le_iff_toNat_le.mpr (Nat.le_trans fed (UInt64.le_iff_toNat_le.mp few))

theorem rowByRow (batched : Batched model varies (provider.gemmStrategy = .auto))
    (fit : GraphOptimizer.Optimizable model rank)
    (scheduled : InferenceSession.Scheduled model session slots) : RowByRow maxBatch provider session slots := by
  intro n batch row fed few stacked call tensors after result reached returned
  obtain ⟨rest, shape, shaped⟩ := stacked.shape
  have ran := ((inferBatch_ok_iff shape).mp returned).2
  obtain ⟨answers, laid, each⟩ := batched.rows_run fed fit scheduled (reached_settled scheduled reached) stacked ran
  refine ⟨answers, laid, fun i inside again start other => ?_⟩
  obtain ⟨last, done⟩ := each i inside again start (reached_settled scheduled other)
  exact ⟨last, (inferBatch_ok_iff (shaped i inside)).mpr ⟨one_le fed few, done⟩⟩

theorem together (batched : Batched model varies whole) (full : model.Whole) (fit : GraphOptimizer.Optimizable model rank)
    (scheduled : InferenceSession.Scheduled model session slots) : Together maxBatch provider session slots := by
  intro n batch row fed few stacked i inside call tensors after result reached returned roomy again start other
  obtain ⟨rest, shape, shaped⟩ := stacked.shape
  have ran := ((inferBatch_ok_iff (shaped i inside)).mp returned).2
  obtain ⟨last, answer, done⟩ := batched.batch_runs full fed fit scheduled (reached_settled scheduled reached)
    (stacked.wide inside) ran roomy
    again (reached_settled scheduled other)
  exact ⟨last, answer, (inferBatch_ok_iff shape).mpr ⟨few, done⟩⟩

end Engine

section Packing
variable {batch : List (Request ℚ)} {input : Tensor ℚ}

theorem flatMap_joined {α β : Type} (items : List α) (part : α → List β) :
    items.flatMap part = joined items.length fun i => (items[i]?.map part).getD [] := by
  rw [joined, List.flatMap_def, List.flatMap_def]
  refine congrArg List.flatten (List.ext_getElem (by simp) fun i first second => ?_)
  rw [List.length_map] at first
  simp [first]

/-- The rows of a packed batch are the requests, each packed on its own. -/
theorem packed_rows (filled : batch ≠ []) (few : batch.length < 2 ^ 64)
    (sized : ∀ request ∈ batch, request.features.length = config.featureCount.toNat)
    (packed : Batcher.packBatch config batch = .ok input) : ∃ row, Stacked (UInt64.ofNat batch.length) input row ∧
      ∀ i request, batch[i]? = some request → Batcher.packBatch config [⟨0, request.features⟩] = .ok (row i) := by
  obtain ⟨shape, data⟩ := Batcher.packBatch_ok sized few packed
  have count : (UInt64.ofNat batch.length).toNat = batch.length := by rw [UInt64.toNat_ofNat', Nat.mod_eq_of_lt few]
  have width : (computeSize [1, config.featureCount]).toNat = config.featureCount.toNat :=
    (Batcher.size_rows (n := 1) (by omega) _).trans (by rw [Nat.one_mul, Nat.mod_eq_of_lt config.featureCount.toNat_lt])
  have widths : ∀ i, i < (UInt64.ofNat batch.length).toNat →
      ((batch[i]?.map Request.features).getD []).length = (computeSize [1, config.featureCount]).toNat := by
    intro i inside
    rw [count] at inside
    rw [List.getElem?_eq_getElem inside, width]
    exact sized _ (List.getElem_mem inside)
  rw [flatMap_joined, ← count] at data
  obtain ⟨row, stacked, each⟩ := Stacked.exists_rows (by rw [count]; exact List.length_pos_iff.mpr filled) shape widths data
  refine ⟨row, stacked, fun i request here => ?_⟩
  obtain ⟨below, _⟩ := List.getElem?_eq_some_iff.mp here
  obtain ⟨narrow, values⟩ := each i (count.symm ▸ below)
  rw [here] at values
  have long := sized request (List.mem_of_getElem? here)
  have fits := (row i).fits
  rw [values] at fits
  change request.features.length * 4 < 2 ^ 64 at fits
  rw [long, ← Nat.one_mul config.featureCount.toNat] at fits
  have own : ∀ other ∈ [(⟨0, request.features⟩ : Request ℚ)], other.features.length = config.featureCount.toNat :=
    List.forall_mem_singleton.mpr long
  obtain ⟨lone, made⟩ := Batcher.packBatch_fits own (by simp) fits
  obtain ⟨same, features⟩ := Batcher.packBatch_ok own (by simp) made
  rw [made]
  refine congrArg Except.ok (Tensor.ext (same.trans narrow.symm) ?_)
  rw [features, values]
  exact List.append_nil _

end Packing

section Clients
open Batcher (accepted taken answers)
variable {events : List (BatcherEvent ℚ)} {batcher : Batcher ℚ} {promise : Nat}

/-- The batches are answered by the engine. -/
def Engaged (maxBatch : UInt64) (provider : Provider) (session : Session ℚ) (slots : Slots ℚ)
    (events : List (BatcherEvent ℚ)) : Prop :=
  ∀ batch input returned, .inferred batch input returned ∈ events →
    ∃ call tensors after, Reached provider session slots tensors ∧
    inferBatch maxBatch provider session call input tensors = .ok (after, returned)

/-- A row of a batched output is what the sole row of its own output is. -/
theorem slice_row {n : UInt64} {output : Tensor ℚ} {row : Nat → Tensor ℚ} (stacked : Stacked n output row) {i : Nat}
    (inside : i < n.toNat) {classes : UInt64} (shape : output.shape = [n, classes]) :
    (row i).shape = [1, classes] ∧ (row i).data.length = classes.toNat ∧
      (output.data.drop (i * classes.toNat)).take classes.toNat = (row i).data := by
  obtain ⟨rest, outer, shaped⟩ := stacked.shape
  cases outer.symm.trans shape
  have widths := Stacked.sized shaped
  have width : (computeSize [1, classes]).toNat = classes.toNat :=
    (Batcher.size_rows (n := 1) (by omega) _).trans (by rw [Nat.one_mul, Nat.mod_eq_of_lt classes.toNat_lt])
  rw [width] at widths
  refine ⟨shaped i inside, widths i inside, ?_⟩
  rw [stacked.data]
  exact Lib.Rows.row_joined widths inside

theorem sliceBatch_single {output : Tensor ℚ} {classes : UInt64} (shape : output.shape = [1, classes])
    (length : output.data.length = classes.toNat) : Batcher.sliceBatch 1 output = .ok [output.data] := by
  have one : 1 < 2 ^ 64 := by decide
  rw [@Batcher.sliceBatch_rows ℚ output 1 classes one shape (by rw [Nat.one_mul, length])]
  refine congrArg Except.ok (congrArg (· :: []) ?_)
  change (output.data.drop (0 * classes.toNat)).take classes.toNat = output.data
  rw [Nat.zero_mul, List.drop_zero]
  exact List.take_of_length_le (Nat.le_of_eq length)

/-- Logits are those the request gets alone. -/
theorem answered_alone (rows : RowByRow maxBatch provider session slots)
    (engaged : Engaged maxBatch provider session slots events)
    (served : Batcher.Served config events batcher) {values : List ℚ} (told : (promise, .ok values) ∈ answers events) :
    ∃ request ∈ accepted events, request.promise = promise ∧
      Alone config maxBatch provider session slots request.features values := by
  obtain ⟨batch, member, i, request, input, returned, here, same, inferred, packed, logits, made, found⟩ :=
    served.own promise _ (.inl told)
  obtain ⟨few, sized⟩ := served.batch member
  have inside := List.mem_of_getElem? here
  refine ⟨request, ?_, same, ?_⟩
  · rw [served.segments]
    exact List.mem_append_left _ (List.mem_flatten.mpr ⟨batch, member, inside⟩)
  obtain ⟨row, stacked, each⟩ := packed_rows (List.ne_nil_of_mem inside) few sized packed
  have count : (UInt64.ofNat batch.length).toNat = batch.length := by rw [UInt64.toNat_ofNat', Nat.mod_eq_of_lt few]
  obtain ⟨below, _⟩ := List.getElem?_eq_some_iff.mp here
  rw [← count] at below
  obtain ⟨result, rfl, sliced⟩ := Lib.bind_ok made
  obtain ⟨classes, shape, _, rfl⟩ := Batcher.sliceBatch_ok few sliced
  obtain ⟨call, tensors, after, reached, ran⟩ := engaged batch input _ inferred
  obtain ⟨_, outer, _⟩ := stacked.shape
  obtain ⟨own, laid, alone⟩ := rows _ input row
    (by omega) ((inferBatch_ok_iff outer).mp ran).1 stacked call tensors after result reached ran
  obtain ⟨narrow, length, data⟩ := slice_row laid below shape
  refine ⟨row i, each i request here, fun again start other => ?_⟩
  obtain ⟨last, done⟩ := alone i below again start other
  refine ⟨last, own i, done, ?_⟩
  rw [List.getElem?_map, List.getElem?_range (count ▸ below), Option.map_some, Option.some.injEq, data] at found
  rw [← found]
  exact sliceBatch_single narrow length

/-- Who is answered an exception is not answered alone either, unless there is no
room for so many rows. -/
theorem failed_alone (rows : RowByRow maxBatch provider session slots) (batched : Together maxBatch provider session slots)
    (engaged : Engaged maxBatch provider session slots events) (served : Batcher.Served config events batcher)
    (few : config.limit ≤ maxBatch) {fault : Fault} (told : (promise, .error fault) ∈ answers events) :
    ∃ batch ∈ taken events, ∃ request ∈ batch, request.promise = promise ∧
      ∀ values, Alone config maxBatch provider session slots request.features values → ∃ input call tensors after returned,
        Batcher.packBatch config [⟨0, request.features⟩] = .ok input ∧ Reached provider session slots tensors ∧
          inferBatch maxBatch provider session call input tensors = .ok (after, .ok returned) ∧
            ¬Roomy batch.length after := by
  obtain ⟨batch, member, i, request, input, returned, here, same, inferred, packed, _, failed⟩ :=
    served.own promise _ (.inl told)
  obtain ⟨small, sized⟩ := served.batch member
  have inside := List.mem_of_getElem? here
  refine ⟨batch, member, request, inside, same, fun values alone => ?_⟩
  obtain ⟨row, stacked, each⟩ := packed_rows (List.ne_nil_of_mem inside) small sized packed
  have count : (UInt64.ofNat batch.length).toNat = batch.length := by rw [UInt64.toNat_ofNat', Nat.mod_eq_of_lt small]
  obtain ⟨below, _⟩ := List.getElem?_eq_some_iff.mp here
  rw [← count] at below
  have limited : UInt64.ofNat batch.length ≤ maxBatch := by
    have bounded := (served.bounded batch member).2
    have most := UInt64.le_iff_toNat_le.mp few
    exact UInt64.le_iff_toNat_le.mpr (by omega)
  obtain ⟨call, tensors, after, reached, ran⟩ := engaged batch input returned inferred
  obtain ⟨lone, own, answered⟩ := alone
  cases own.symm.trans (each i request here)
  obtain ⟨last, answer, done, sliced⟩ := answered call tensors reached
  refine ⟨row i, call, tensors, last, answer, own, reached, done, fun roomy => ?_⟩
  rw [← count] at roomy
  obtain ⟨final, result, returns⟩ := batched _ input row
    (by omega) limited stacked i below call tensors last answer reached done roomy call tensors
    reached
  cases ran.symm.trans returns
  obtain ⟨answers, laid, others⟩ := rows _ input row (by omega) limited stacked call tensors after result reached ran
  obtain ⟨_, again⟩ := others i below call tensors reached
  cases done.symm.trans again
  obtain ⟨classes, shape, _⟩ := Batcher.sliceBatch_ok (by decide) sliced
  obtain ⟨rest, outer, shaped⟩ := laid.shape
  cases (shaped i below).symm.trans shape
  have length := laid.length below
  rw [count, (slice_row laid below outer).2.1] at length
  have sliced := Batcher.sliceBatch_rows small outer length.ge
  cases sliced.symm.trans failed

/-- A promise belongs to one request. -/
theorem accepted_inj (served : Batcher.Served config events batcher) {one other : Request ℚ} (first : one ∈ accepted events)
    (second : other ∈ accepted events) (same : one.promise = other.promise) : one = other := by
  have distinct : ((accepted events).map Request.promise).Nodup := by
    rw [served.numbered]
    exact List.nodup_range
  exact List.inj_on_of_nodup_map distinct first second same

theorem Alone.unique {features first second : List ℚ} (one : Alone config maxBatch provider session slots features first)
    (other : Alone config maxBatch provider session slots features second) : first = second := by
  obtain ⟨input, packed, answered⟩ := one
  obtain ⟨_, same, again⟩ := other
  cases packed.symm.trans same
  obtain ⟨_, _, ran, sliced⟩ := answered plainCall slots ⟨[], [], rfl⟩
  obtain ⟨_, _, repeated, resliced⟩ := again plainCall slots ⟨[], [], rfl⟩
  cases ran.symm.trans repeated
  cases sliced.symm.trans resliced
  rfl

end Clients

/-- The mates of a request in a batch do not influence what it is answered. -/
structure BatchMates (maxBatch : UInt64) (provider : Provider) (session : Session ℚ) (slots : Slots ℚ) (full : Prop) :
    Prop where
  rows : RowByRow maxBatch provider session slots
  together : full → Together maxBatch provider session slots
  /-- A client that is answered logits is answered those it would be answered alone. -/
  alone : ∀ (config : BatcherConfig) (actions : List (BatcherAction ℚ)),
    Engaged maxBatch provider session slots (Lib.Machine.outputs (Batcher.step config) {} actions) →
      ∀ promise values, (promise, .ok values) ∈ Batcher.answers (Lib.Machine.outputs (Batcher.step config) {} actions) →
        ∃ request ∈ Batcher.accepted (Lib.Machine.outputs (Batcher.step config) {} actions), request.promise = promise ∧
          Alone config maxBatch provider session slots request.features values
  /-- In two histories of the batcher the same features are answered the same logits. -/
  alike : ∀ (config : BatcherConfig) (actions others : List (BatcherAction ℚ)),
    Engaged maxBatch provider session slots (Lib.Machine.outputs (Batcher.step config) {} actions) →
    Engaged maxBatch provider session slots (Lib.Machine.outputs (Batcher.step config) {} others) →
      ∀ one ∈ Batcher.accepted (Lib.Machine.outputs (Batcher.step config) {} actions),
      ∀ other ∈ Batcher.accepted (Lib.Machine.outputs (Batcher.step config) {} others), one.features = other.features →
        ∀ first second, (one.promise, .ok first) ∈ Batcher.answers (Lib.Machine.outputs (Batcher.step config) {} actions) →
          (other.promise, .ok second) ∈ Batcher.answers (Lib.Machine.outputs (Batcher.step config) {} others) →
            first = second
  failed : full → ∀ (config : BatcherConfig) (actions : List (BatcherAction ℚ)), config.limit ≤ maxBatch →
    Engaged maxBatch provider session slots (Lib.Machine.outputs (Batcher.step config) {} actions) →
      ∀ promise fault, (promise, .error fault) ∈ Batcher.answers (Lib.Machine.outputs (Batcher.step config) {} actions) →
        ∃ batch ∈ Batcher.taken (Lib.Machine.outputs (Batcher.step config) {} actions), ∃ request ∈ batch,
          request.promise = promise ∧
          ∀ values, Alone config maxBatch provider session slots request.features values →
            ∃ input call tensors after returned,
            Batcher.packBatch config [⟨0, request.features⟩] = .ok input ∧ Reached provider session slots tensors ∧
              inferBatch maxBatch provider session call input tensors = .ok (after, .ok returned) ∧ ¬Roomy batch.length after

/-- No caller can tell which requests shared a batch with its own. `distinct` leaves
out models in which two nodes have one name. Only `Auto` looks at sizes, and for it
`whole` leaves out weights whose dimensions multiply to more than 64 bits hold, so
that they have fewer elements than their dimensions say. -/
theorem batch_mates {model : Model ℚ} (assembled : model.Assembled) (distinct : model.graph.insertionOrder.Nodup)
    (once : model.DefinedOnce) (acyclic : model.graph.Acyclic) (rowWise : model.RowWise) {provider : Provider}
    (whole : provider.gemmStrategy = .auto → model.Whole) {config : SessionConfig} {platform : Platform ℚ}
    {initializers : FiniteMap.Traversal Text (Tensor ℚ)} {session : Session ℚ} {slots : Slots ℚ}
    (prepared : InferenceSession.prepare config platform initializers provider model = .ok (session, slots))
    (maxBatch : UInt64) :
    BatchMates maxBatch provider session slots model.Whole := by
  obtain ⟨ready, rewrites, scheduled⟩ := prepare_sound assembled.kept prepared
  obtain ⟨rank, fit⟩ := GraphOptimizer.Optimizable.of_assembled assembled distinct once acyclic
  obtain ⟨batched, fitReady⟩ := (rowWise.batched once whole).rewrites fit rewrites
  have rows := @rowByRow maxBatch _ _ _ _ _ _ batched fitReady scheduled
  have joint : model.Whole → Together maxBatch provider session slots := by
    intro full
    obtain ⟨batched, _⟩ := (rowWise.batched once fun _ : True => full).rewrites fit rewrites
    exact together batched (batched.whole trivial) fitReady scheduled
  have alone := fun (config : BatcherConfig) actions engaged promise values told =>
    @answered_alone maxBatch provider session slots config _ _ promise rows engaged
      (Batcher.served_after config actions) values told
  refine ⟨rows, joint, alone,
    fun config actions others engaged again one member other found same first second told heard => ?_,
    fun full config actions few engaged promise fault told => ?_⟩
  · obtain ⟨request, here, promised, answer⟩ := alone config actions engaged _ first told
    obtain ⟨mate, there, equal, reply⟩ := alone config others again _ second heard
    cases accepted_inj (Batcher.served_after config actions) here member promised
    cases accepted_inj (Batcher.served_after config others) there found equal
    rw [same] at answer
    exact answer.unique reply
  · exact failed_alone rows (joint full) engaged (Batcher.served_after config actions) few told

section Branching
open GraphOptimizer (branching)

theorem branching_rowWise : branching.model.RowWise where
  nodes name node has := by
    obtain ⟨found, member, _, rfl⟩ := ModelSketch.has_model has
    have request : Activation branching.model (text "x") := .request rfl
    simp only [branching, List.mem_cons, List.not_mem_nil, or_false] at member
    rcases member with rfl | rfl | rfl
    · refine ⟨rfl, text "x", text "w", [], rfl, request, unitTensor, rfl, nofun⟩
    · trivial
    · trivial
  output name first := by
    have product : branching.model.graph.Has (text "g") (NodeSketch.node ⟨"g", "Gemm", ["x", "w"], ["t"]⟩) := ⟨_, rfl⟩
    have relu : branching.model.graph.Has (text "r") (NodeSketch.node ⟨"r", "Relu", ["t"], ["y"]⟩) := ⟨_, rfl⟩
    cases first
    refine .node relu List.mem_cons_self (List.cons_ne_nil _ _) (List.forall_mem_singleton.mpr ?_)
    exact .node product List.mem_cons_self (List.cons_ne_nil _ _) (List.forall_mem_singleton.mpr (.request rfl))

theorem branching_whole : branching.model.Whole := by
  intro name node has product B matrix second held
  obtain ⟨found, member, _, rfl⟩ := ModelSketch.has_model has
  simp only [branching, List.mem_cons, List.not_mem_nil, or_false] at member
  rcases member with rfl | rfl | rfl
  · cases second
    cases held
    rfl
  · cases second
  · cases second

/-- Two requests of one feature. -/
def pairTensor : Tensor ℚ := ⟨[2, 1], [1, -2], rfl, by decide⟩

def pairRow (i : Nat) : Tensor ℚ :=
  ⟨[1, 1], [if i = 0 then 1 else -2], rfl, (by decide : 1 * 4 < 2 ^ 64)⟩

theorem batch_mates_branching : ∃ session slots after result answers,
    InferenceSession.prepare ⟨true, true⟩ plainPlatform .kept ⟨.auto⟩ branching.model = .ok (session, slots) ∧
      inferBatch 8 ⟨.auto⟩ session plainCall pairTensor slots = .ok (after, .ok result) ∧ Stacked 2 result answers ∧
        ∀ i, i < 2 → ∃ last, inferBatch 8 ⟨.auto⟩ session plainCall (pairRow i) slots = .ok (last, .ok (answers i)) := by
  obtain ⟨session, slots, after, result, prepared, ran⟩ : ∃ session slots after result,
      InferenceSession.prepare ⟨true, true⟩ plainPlatform .kept ⟨.auto⟩ branching.model = .ok (session, slots) ∧
        inferBatch 8 ⟨.auto⟩ session plainCall pairTensor slots = .ok (after, .ok result) := ⟨_, _, _, _, rfl, rfl⟩
  have mates := batch_mates branching.assembled (by decide +kernel) (branching.definedOnce (by decide +kernel))
    (branching.acyclic (by decide +kernel)) branching_rowWise (fun _ => branching_whole) prepared 8
  have stacked : Stacked 2 pairTensor pairRow := ⟨⟨[1], rfl, fun _ _ => rfl⟩, by decide +kernel⟩
  obtain ⟨answers, laid, each⟩ := mates.rows 2 pairTensor pairRow
    (by decide) (by decide) stacked plainCall slots after result ⟨[], [], rfl⟩ ran
  exact ⟨session, slots, after, result, answers, prepared, ran, laid,
    fun i inside => each i inside plainCall slots ⟨[], [], rfl⟩⟩

end Branching
end InferenceEngine
end FromScratch.Inference
