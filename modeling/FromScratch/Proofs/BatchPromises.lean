import FromScratch.Inference.RunBatch
import FromScratch.Proofs.GemmRational
import FromScratch.Proofs.Batching

/-! Whether a batch satisfies each of its promises once. The handler goes through all
of them, so that it throws itself if one already has its value. -/

namespace FromScratch.Inference

namespace Serving
variable {F α β : Type} {serving : Serving F α} {settlement after : Settlement F}

theorem run_ok {value : α} (ran : run serving settlement = (.ok value, after)) (next : α → Serving F β) :
    run (serving >>= next) settlement = run (next value) after := by
  simp only [run, ExceptT.run_bind, StateT.run_bind] at ran ⊢
  rw [ran]
  rfl

theorem run_error {exit : Exit} (ran : run serving settlement = (.error exit, after)) (next : α → Serving F β) :
    run (serving >>= next) settlement = (.error exit, after) := by
  simp only [run, ExceptT.run_bind, StateT.run_bind] at ran ⊢
  rw [ran]
  rfl

theorem run_caught {exit : Exit} {handle : Exit → Serving F α} (ran : run serving settlement = (.error exit, after)) :
    run (tryCatch serving handle) settlement = run (handle exit) after := by
  change StateT.run (ExceptT.run (ExceptT.tryCatch serving handle)) settlement = _
  simp only [run, ExceptT.tryCatch, ExceptT.run_mk, StateT.run_bind] at ran ⊢
  rw [show StateT.run serving settlement = _ from ran]
  rfl

theorem run_uncaught {value : α} {handle : Exit → Serving F α} (ran : run serving settlement = (.ok value, after)) :
    run (tryCatch serving handle) settlement = (.ok value, after) := by
  change StateT.run (ExceptT.run (ExceptT.tryCatch serving handle)) settlement = _
  simp only [run, ExceptT.tryCatch, ExceptT.run_mk, StateT.run_bind] at ran ⊢
  rw [show StateT.run serving settlement = _ from ran]
  rfl

theorem attempt_ok {result : Except Exception α} {value : α} (done : result = .ok value) (settlement : Settlement F) :
    run (attempt result) settlement = (.ok value, settlement) := by
  rw [done]
  rfl

theorem attempt_error {result : Except Exception α} {exception : Exception} (thrown : result = .error exception)
    (settlement : Settlement F) : run (attempt result) settlement = (.error (.thrown exception), settlement) := by
  rw [thrown]
  rfl

theorem computed_ok {result : Except Fault α} {value : α} (done : result = .ok value) (settlement : Settlement F) :
    run (computed result) settlement = (.ok value, settlement) := by
  rw [done]
  rfl

theorem computed_error {result : Except Fault α} {fault : Fault} (failed : result = .error fault)
    (settlement : Settlement F) :
    run (computed result) settlement = (.error fault.exit, settlement) := by
  rw [failed]
  rfl

theorem satisfy_fresh {promise : Nat} (fresh : promise ∉ settlement.outcomes.map Prod.fst) (outcome : Outcome F) :
    run (satisfy promise outcome) settlement =
      (.ok (), { settlement with outcomes := settlement.outcomes ++ [(promise, outcome)] }) := by
  have got : run (get : Serving F (Settlement F)) settlement = (.ok settlement, settlement) := rfl
  rw [satisfy, run_ok got, if_neg fresh]
  rfl

theorem satisfy_again {promise : Nat} (again : promise ∈ settlement.outcomes.map Prod.fst) (outcome : Outcome F) :
    run (satisfy promise outcome) settlement = (.error (.thrown .promiseAlreadySatisfied), settlement) := by
  have got : run (get : Serving F (Settlement F)) settlement = (.ok settlement, settlement) := rfl
  rw [satisfy, run_ok got, if_pos again]
  rfl

end Serving

namespace Batcher
open Serving
variable {F : Type} {surroundings : Surroundings F} {output : Tensor F} {classes : UInt64} {batch : List (Request F)}
  {settlement : Settlement F}

/-- None of the promises is satisfied, and no two are the same. -/
def Fresh (settlement : Settlement F) (batch : List (Request F)) : Prop :=
  (batch.map Request.promise).Nodup ∧ ∀ request ∈ batch, request.promise ∉ settlement.outcomes.map Prod.fst

theorem Fresh.tail {request : Request F} (fresh : Fresh settlement (request :: batch)) (outcome : Outcome F) :
    Fresh { settlement with outcomes := settlement.outcomes ++ [(request.promise, outcome)] } batch := by
  obtain ⟨distinct, unsatisfied⟩ := fresh
  obtain ⟨apart, distinct⟩ := List.nodup_cons.mp distinct
  refine ⟨distinct, fun other member => ?_⟩
  rw [List.map_append, List.mem_append, not_or]
  refine ⟨unsatisfied other (List.mem_cons_of_mem _ member), fun found => apart ?_⟩
  have same : other.promise = request.promise := List.mem_singleton.mp found
  rw [← same]
  exact List.mem_map_of_mem member

theorem answerError_fresh (fresh : Fresh settlement batch) (exception : Exception) :
    run (answerError exception batch) settlement =
      (.ok (), { settlement with
        outcomes := settlement.outcomes ++ batch.map fun request => (request.promise, .error exception) }) := by
  induction batch generalizing settlement with
  | nil =>
    rw [List.map_nil, List.append_nil]
    rfl
  | cons request batch ih =>
    rw [answerError, run_ok (satisfy_fresh (fresh.2 request List.mem_cons_self) _), ih (fresh.tail _), List.append_assoc]
    rfl

/-- The handler throws at the first promise that has its value. -/
theorem answerError_again {request : Request F} (again : request.promise ∈ settlement.outcomes.map Prod.fst)
    (exception : Exception) :
    run (answerError exception (request :: batch)) settlement = (.error (.thrown .promiseAlreadySatisfied), settlement) := by
  rw [answerError, run_error (satisfy_again again _)]

theorem batchRow_fails (output : Tensor F) (classes : UInt64) (i : Nat) :
    Lib.FailsWith (fun fault => fault = .undefined) (batchRow output classes i) := by
  intro fault failed
  rw [batchRow, Tensor.slice] at failed
  split at failed
  · cases failed
  · exact (Except.error.inj failed).symm

/-- The result vector can be built. -/
def Builds (surroundings : Surroundings F) (output : Tensor F) (classes : UInt64) (i : Nat) (row : List F) : Prop :=
  surroundings.vector i = .ok () ∧ batchRow output classes i = .ok row

theorem answerRows_all {rows : List (List F)} {i : Nat} (fresh : Fresh settlement batch)
    (built : List.Forall₂ (Builds surroundings output classes) (List.range' i batch.length) rows) :
    run (answerRows surroundings output classes i batch) settlement =
      (.ok (), { settlement with outcomes := settlement.outcomes ++ (batch.map Request.promise).zip (rows.map .ok) }) := by
  induction batch generalizing settlement i rows with
  | nil =>
    rw [List.map_nil, List.zip_nil_left, List.append_nil]
    rfl
  | cons request batch ih =>
    rw [List.length_cons, List.range'_succ] at built
    cases built with
    | @cons _ row _ rows built others =>
      rw [answerRows, run_ok (attempt_ok built.1 _), run_ok (computed_ok built.2 _),
        run_ok (satisfy_fresh (fresh.2 request List.mem_cons_self) _), ih (fresh.tail _) others,
        List.append_assoc]
      rfl

theorem answerRows_first {i : Nat} {exception : Exception} (thrown : surroundings.vector i = .error exception)
    (request : Request F) :
    run (answerRows surroundings output classes i (request :: batch)) settlement =
      (.error (.thrown exception), settlement) := by
  rw [answerRows, run_error (attempt_error thrown _)]

/-- Where the loop gets stuck. -/
structure Stuck (surroundings : Surroundings F) (output : Tensor F) (classes : UInt64) (i : Nat) (exit : Exit) : Prop where
  unbuilt : ∀ row, ¬Builds surroundings output classes i row
  thrown : ∀ exception, exit = .thrown exception → surroundings.vector i = .error exception

theorem answerRows_cases (surroundings : Surroundings F) (output : Tensor F) (classes : UInt64) (i : Nat)
    (fresh : Fresh settlement batch) :
    (∃ rows, List.Forall₂ (Builds surroundings output classes) (List.range' i batch.length) rows) ∨
      ∃ k exit after, k < batch.length ∧ Stuck surroundings output classes (i + k) exit ∧
        run (answerRows surroundings output classes i batch) settlement = (.error exit, after) ∧
        after.outcomes.map Prod.fst = settlement.outcomes.map Prod.fst ++ (batch.take k).map Request.promise := by
  induction batch generalizing settlement i with
  | nil => exact .inl ⟨[], .nil⟩
  | cons request batch ih =>
    cases vector : surroundings.vector i with
    | error exception =>
      refine .inr ⟨0, .thrown exception, settlement, Nat.succ_pos _, ⟨fun row built => ?_, fun other same => ?_⟩, ?_,
        by simp⟩
      · cases vector.symm.trans built.1
      · cases same
        exact vector
      · exact answerRows_first vector request
    | ok =>
      cases read : batchRow output classes i with
      | error fault =>
        have lost := batchRow_fails output classes i fault read
        refine .inr ⟨0, .undefined, settlement, Nat.succ_pos _, ⟨fun row built => ?_, nofun⟩, ?_, by simp⟩
        · cases read.symm.trans built.2
        · rw [answerRows, run_ok (attempt_ok vector _), run_error (computed_error read _), lost]
          rfl
      | ok row =>
        have first := satisfy_fresh (fresh.2 request List.mem_cons_self) (.ok row)
        obtain ⟨rows, built⟩ | ⟨k, exit, after, below, stuck, rest, kept⟩ := ih (i + 1) (fresh.tail (.ok row))
        · refine .inl ⟨row :: rows, ?_⟩
          rw [List.length_cons, List.range'_succ]
          exact .cons ⟨vector, read⟩ built
        · rw [Nat.add_right_comm] at stuck
          refine .inr ⟨k + 1, exit, after, Nat.succ_lt_succ below, stuck, ?_, ?_⟩
          · rw [answerRows, run_ok (attempt_ok vector _), run_ok (computed_ok read _), run_ok first, rest]
          · rw [kept, List.map_append, List.append_assoc]
            rfl

section Batches
variable [Scalar F] {config : BatcherConfig}

/-- What is thrown before the first promise has its value. -/
inductive Threw (config : BatcherConfig) (surroundings : Surroundings F) (batch : List (Request F)) : Exception → Prop
  | allocate {exception : Exception} (thrown : surroundings.allocate = .error exception) :
      Threw config surroundings batch exception
  | infer {input : Tensor F} {exception : Exception} (allocated : surroundings.allocate = .ok ())
      (packed : packBatch config batch = .ok input) (thrown : surroundings.inferBatch input = .error exception) :
      Threw config surroundings batch exception
  | shape {input output : Tensor F} {fault : Fault} (allocated : surroundings.allocate = .ok ())
      (packed : packBatch config batch = .ok input) (inferred : surroundings.inferBatch input = .ok output)
      (unexpected : batchClasses batch.length output = .error fault) : Threw config surroundings batch (.fault fault)
  | first {input output : Tensor F} {classes : UInt64} {exception : Exception} (allocated : surroundings.allocate = .ok ())
      (packed : packBatch config batch = .ok input) (inferred : surroundings.inferBatch input = .ok output)
      (shape : output.shape = [UInt64.ofNat batch.length, classes]) (thrown : surroundings.vector 0 = .error exception) :
      Threw config surroundings batch exception

/-- If something throws, it does so before the first promise has its value, and the rows lie in the output. -/
inductive Prompt (config : BatcherConfig) (surroundings : Surroundings F) (batch : List (Request F)) : Prop
  | threw {exception : Exception} (thrown : Threw config surroundings batch exception) : Prompt config surroundings batch
  | none {input output : Tensor F} {classes : UInt64} (allocated : surroundings.allocate = .ok ())
      (packed : packBatch config batch = .ok input) (inferred : surroundings.inferBatch input = .ok output)
      (shape : output.shape = [UInt64.ofNat batch.length, classes])
      (inside : batch.length * classes.toNat ≤ output.data.length)
      (vectors : ∀ i, i < batch.length → surroundings.vector i = .ok ()) (locked : surroundings.lock = .ok ()) :
      Prompt config surroundings batch

/-- What the promises of the batch are given: their rows, or the exception that was thrown. -/
def Given (config : BatcherConfig) (surroundings : Surroundings F) (batch : List (Request F))
    (outcomes : List (Outcome F)) : Prop :=
  (∃ input output logits, packBatch config batch = .ok input ∧ surroundings.inferBatch input = .ok output ∧
    sliceBatch batch.length output = .ok logits ∧ outcomes = logits.map .ok) ∨
    ∃ exception, Threw config surroundings batch exception ∧ outcomes = batch.map fun _ => .error exception

/-- `runBatch` returns, and has satisfied each promise once. -/
def Answers (config : BatcherConfig) (surroundings : Surroundings F) (batch : List (Request F))
    (settlement : Settlement F) : Prop :=
  ∃ after outcomes, run (runBatch config surroundings batch) settlement = (.ok (), after) ∧
    after.outcomes = settlement.outcomes ++ (batch.map Request.promise).zip outcomes ∧ outcomes.length = batch.length ∧
    Given config surroundings batch outcomes

omit [Scalar F] in
theorem batchClasses_ok {n : Nat} {classes : UInt64} (shape : output.shape = [UInt64.ofNat n, classes]) :
    batchClasses n output = .ok classes := by
  obtain ⟨planar, first, second⟩ := extents shape
  rw [batchClasses, if_neg planar, first, second]
  exact if_neg (not_not.mpr rfl)

omit [Scalar F] in
theorem batchClasses_error {n : Nat} (unexpected : ∀ classes, output.shape ≠ [UInt64.ofNat n, classes]) :
    ∃ fault, batchClasses n output = .error fault ∧ fault.exit = .thrown (.fault fault) := by
  rw [batchClasses]
  split
  · exact ⟨_, rfl, rfl⟩
  next planar =>
    obtain ⟨rows, cols, same⟩ := List.length_eq_two.mp (not_not.mp planar)
    have first : output.dim 0 = .ok rows := by
      rw [Tensor.dim, same]
      rfl
    rw [first]
    refine ⟨_, if_pos ?_, rfl⟩
    rintro rfl
    exact unexpected cols same

omit [Scalar F] in
theorem batchClasses_exit {n : Nat} {fault : Fault} (refused : batchClasses n output = .error fault) :
    fault.exit = .thrown (.fault fault) := by
  have unexpected : ∀ classes, output.shape ≠ [UInt64.ofNat n, classes] := by
    intro classes shape
    cases (batchClasses_ok shape).symm.trans refused
  obtain ⟨other, same, exit⟩ := batchClasses_error unexpected
  cases same.symm.trans refused
  exact exit

/-- An exception before the first promise goes to all. -/
theorem answers_thrown {exception : Exception} (fresh : Fresh settlement batch)
    (threw : Threw config surroundings batch exception)
    (ran : run (tryBatch config surroundings batch) settlement = (.error (.thrown exception), settlement)) :
    Answers config surroundings batch settlement := by
  refine ⟨_, batch.map fun _ => .error exception, (run_caught ran).trans (answerError_fresh fresh exception), ?_,
    List.length_map _, .inr ⟨exception, threw, rfl⟩⟩
  rw [List.zip_map']

theorem allocate_thrown {exception : Exception} (thrown : surroundings.allocate = .error exception) :
    run (tryBatch config surroundings batch) settlement = (.error (.thrown exception), settlement) := by
  rw [tryBatch, run_error (attempt_error thrown _)]

/-- What is left of the block once the input is there. -/
theorem tryBatch_packed {input : Tensor F} (allocated : surroundings.allocate = .ok ())
    (packed : packBatch config batch = .ok input) :
    run (tryBatch config surroundings batch) settlement = run (attempt (surroundings.inferBatch input) >>= fun output => do
      let classes ← computed (batchClasses batch.length output)
      answerRows surroundings output classes 0 batch
      attempt surroundings.lock
      modify fun settlement => { settlement with stats := settlement.stats.count batch.length }) settlement := by
  rw [tryBatch, run_ok (attempt_ok allocated _), run_ok (computed_ok packed _)]

/-- What is left of the block once the shape has been checked. -/
theorem tryBatch_checked {input : Tensor F} (allocated : surroundings.allocate = .ok ())
    (packed : packBatch config batch = .ok input)
    (inferred : surroundings.inferBatch input = .ok output) (shape : output.shape = [UInt64.ofNat batch.length, classes]) :
    run (tryBatch config surroundings batch) settlement = run (answerRows surroundings output classes 0 batch >>= fun _ => do
      attempt surroundings.lock
      modify fun settlement => { settlement with stats := settlement.stats.count batch.length }) settlement := by
  rw [tryBatch_packed allocated packed, run_ok (attempt_ok inferred _), run_ok (computed_ok (batchClasses_ok shape) _)]

theorem answers_of_prompt (few : batch.length < 2 ^ 64) (fresh : Fresh settlement batch) (filled : batch ≠ [])
    (prompt : Prompt config surroundings batch) : Answers config surroundings batch settlement := by
  cases prompt with
  | threw early =>
    refine answers_thrown fresh early ?_
    cases early with
    | allocate thrown => exact allocate_thrown thrown
    | infer allocated packed thrown =>
      exact (tryBatch_packed allocated packed).trans (run_error (attempt_error thrown _) _)
    | shape allocated packed inferred unexpected =>
      rw [tryBatch_packed allocated packed, run_ok (attempt_ok inferred _), run_error (computed_error unexpected _),
        batchClasses_exit unexpected]
    | first allocated packed inferred shape thrown =>
      obtain ⟨request, rest, rfl⟩ := List.exists_cons_of_ne_nil filled
      exact (tryBatch_checked allocated packed inferred shape).trans (run_error (answerRows_first thrown request) _)
  | @none input output classes allocated packed inferred shape inside vectors locked =>
    have sliced := sliceBatch_rows few shape inside
    have rows := Lib.mapM_ok ((sliceBatch_eq shape).symm.trans sliced)
    have built : List.Forall₂ (Builds surroundings output classes) (List.range' 0 batch.length)
        ((List.range batch.length).map fun i => (output.data.drop (i * classes.toNat)).take classes.toNat) := by
      rw [← List.range_eq_range']
      refine List.forall₂_iff_get.mpr ⟨rows.length_eq, fun i below other => ?_⟩
      refine ⟨vectors _ ?_, rows.get below other⟩
      rw [List.get_eq_getElem, List.getElem_range]
      rwa [List.length_range] at below
    have answered := answerRows_all fresh built
    have ran := (tryBatch_checked allocated packed inferred shape).trans (run_ok answered _)
    rw [run_ok (attempt_ok locked _)] at ran
    refine ⟨_, _, run_uncaught ran, rfl, ?_, .inl ⟨input, output, _, packed, inferred, sliced, rfl⟩⟩
    rw [List.length_map, List.length_map, List.length_range]

theorem prompt_of_answers (few : batch.length < 2 ^ 64) (fresh : Fresh settlement batch) (filled : batch ≠ [])
    (answers : Answers config surroundings batch settlement) : Prompt config surroundings batch := by
  obtain ⟨final, outcomes, ran, _⟩ := answers
  have undefined : ∀ {after : Settlement F}, run (tryBatch config surroundings batch) settlement ≠ (.error .undefined,
    after) := by
    intro after lost
    rw [runBatch, run_caught lost] at ran
    cases ran
  obtain ⟨request, rest, rfl⟩ := List.exists_cons_of_ne_nil filled
  have late : ∀ {exception : Exception} {after : Settlement F},
      run (tryBatch config surroundings (request :: rest)) settlement = (.error (.thrown exception), after) →
        request.promise ∉ after.outcomes.map Prod.fst := by
    intro exception after thrown again
    rw [runBatch, run_caught thrown] at ran
    cases (answerError_again again exception).symm.trans ran
  cases allocated : surroundings.allocate with
  | error => exact .threw (.allocate allocated)
  | ok =>
    cases packed : packBatch config (request :: rest) with
    | error fault =>
      cases packBatch_error packed
      refine absurd ?_ (@undefined settlement)
      rw [tryBatch, run_ok (attempt_ok allocated _), run_error (computed_error packed _)]
      rfl
    | ok input =>
      cases inferred : surroundings.inferBatch input with
      | error => exact .threw (.infer allocated packed inferred)
      | ok output =>
        by_cases expected : ∃ classes, output.shape = [UInt64.ofNat (request :: rest).length, classes]
        · obtain ⟨classes, shape⟩ := expected
          have checked :=
              @tryBatch_checked _ surroundings output classes _ settlement _ config input allocated packed inferred shape
          obtain ⟨rows, built⟩ | ⟨k, exit, after, below, stuck, left, kept⟩ :=
            answerRows_cases surroundings output classes 0 fresh
          · have sliced := (sliceBatch_eq shape).trans (Lib.mapM_forall₂ (by
              rw [List.range_eq_range']
              exact built.imp fun _ _ row => row.2))
            obtain ⟨width, same, inside, _⟩ := sliceBatch_ok few sliced
            cases shape.symm.trans same
            have answered := answerRows_all fresh built
            cases locked : surroundings.lock with
            | error exception =>
              rw [run_ok answered, run_error (attempt_error locked _)] at checked
              refine absurd ?_ (late checked)
              rw [List.map_append, List.map_fst_zip
                (by rw [List.length_map, List.length_map, ← built.length_eq, List.length_range'])]
              exact List.mem_append_right _ List.mem_cons_self
            | ok =>
              refine .none allocated packed inferred shape inside (fun i below => ?_) locked
              obtain ⟨length, each⟩ := List.forall₂_iff_get.mp built
              have vector := (each i (by rwa [List.length_range']) (by rwa [← length, List.length_range'])).1
              rwa [List.get_eq_getElem, List.getElem_range', Nat.one_mul, Nat.zero_add] at vector
          · rw [run_error left] at checked
            cases exit with
            | undefined => exact absurd checked undefined
            | thrown exception =>
              cases k with
              | zero => exact .threw (.first allocated packed inferred shape (stuck.thrown exception rfl))
              | succ k =>
                refine absurd ?_ (late checked)
                rw [kept]
                exact List.mem_append_right _ List.mem_cons_self
        · obtain ⟨fault, refused, _⟩ := batchClasses_error fun classes shape => expected ⟨classes, shape⟩
          exact .threw (.shape allocated packed inferred refused)

omit [Scalar F] in
theorem sliceBatch_classes (n : Nat) (output : Tensor F) :
    sliceBatch n output = batchClasses n output >>= fun classes => (List.range n).mapM (batchRow output classes) := by
  rw [sliceBatch, batchClasses]
  split
  · rfl
  · cases output.dim 0 with
    | error fault => rfl
    | ok first =>
      simp only [bind, Except.bind]
      split <;> rfl

/-- Answers, as the promises are given them. -/
def outcomesOf (answers : List (Nat × Answer F)) : List (Nat × Outcome F) :=
  answers.map (Prod.map id (Except.mapError .fault))

omit [Scalar F] in
theorem outcomesOf_rows (promises : List Nat) (rows : List (List F)) :
    outcomesOf (promises.zip (rows.map .ok)) = promises.zip (rows.map .ok) := by
  rw [outcomesOf, ← List.zip_map_right, List.map_map]
  rfl

/-- Where memory suffices the promises get what `settle` says. -/
theorem runBatch_settles {input : Tensor F} {returned : Except Fault (Tensor F)} (fresh : Fresh settlement batch)
    (allocated : surroundings.allocate = .ok ()) (packed : packBatch config batch = .ok input)
    (inferred : surroundings.inferBatch input = returned.mapError .fault)
    (thrown : ∀ fault, returned = .error fault → fault.Thrown)
    (vectors : ∀ i, surroundings.vector i = .ok ()) (locked : surroundings.lock = .ok ()) {left : List (Nat × Answer F)}
    {counted : Option Nat} (settled : settle batch (returned >>= sliceBatch batch.length) = .answering left counted) :
    run (runBatch config surroundings batch) settlement = (.ok (), ⟨settlement.outcomes ++ outcomesOf left,
      counted.elim settlement.stats settlement.stats.count⟩) := by
  have refused : ∀ {fault : Fault}, fault.Thrown → settle batch (.error fault) = .answering left counted →
      run (tryBatch config surroundings batch) settlement = (.error (.thrown (.fault fault)), settlement) →
        run (runBatch config surroundings batch) settlement = (.ok (), ⟨settlement.outcomes ++ outcomesOf left,
          counted.elim settlement.stats settlement.stats.count⟩) := by
    intro fault wasThrown settled ran
    rw [settle, if_pos wasThrown] at settled
    cases settled
    rw [runBatch, run_caught ran, answerError_fresh fresh, outcomesOf, List.map_map]
    rfl
  cases returned with
  | error fault =>
    refine refused (thrown fault rfl) settled ((tryBatch_packed allocated packed).trans (run_error ?_ _))
    exact attempt_error inferred settlement
  | ok output =>
    change settle batch (sliceBatch batch.length output) = _ at settled
    by_cases expected : ∃ classes, output.shape = [UInt64.ofNat batch.length, classes]
    · obtain ⟨classes, shape⟩ := expected
      have checked :=
          @tryBatch_checked _ surroundings output classes batch settlement _ config input allocated packed inferred shape
      obtain ⟨rows, built⟩ | ⟨k, exit, after, below, stuck, rest, kept⟩ :=
        answerRows_cases surroundings output classes 0 fresh
      · have sliced := (sliceBatch_eq shape).trans (Lib.mapM_forall₂ (by
          rw [List.range_eq_range']
          exact built.imp fun _ _ row => row.2))
        rw [sliced, settle] at settled
        cases settled
        rw [run_ok (answerRows_all fresh built), run_ok (attempt_ok locked _)] at checked
        rw [outcomesOf_rows]
        exact run_uncaught checked
      · have unsliced : ∀ logits, sliceBatch batch.length output ≠ .ok logits := by
          intro logits sliced
          obtain ⟨length, each⟩ := List.forall₂_iff_get.mp (Lib.mapM_ok ((sliceBatch_eq shape).symm.trans sliced))
          have row := each k (by rwa [List.length_range]) (by rwa [← length, List.length_range])
          rw [List.get_eq_getElem, List.getElem_range] at row
          rw [Nat.zero_add] at stuck
          exact stuck.unbuilt _ ⟨vectors k, row⟩
        cases failed : sliceBatch batch.length output with
        | ok logits => exact absurd failed (unsliced logits)
        | error fault =>
          cases (Lib.FailsWith.mapM fun i => batchRow_fails output classes i) fault ((sliceBatch_eq shape).symm.trans failed)
          rw [failed] at settled
          cases settled
    · obtain ⟨fault, unexpected, exit⟩ := batchClasses_error fun classes shape => expected ⟨classes, shape⟩
      have wasThrown : fault.Thrown := by
        by_contra silent
        rw [Fault.exit, if_neg silent] at exit
        cases exit
      rw [sliceBatch_classes, unexpected] at settled
      refine refused wasThrown settled ((tryBatch_packed allocated packed).trans ?_)
      rw [run_ok (attempt_ok inferred _), run_error (computed_error unexpected _), exit]

/-- Every caller is answered once if and only if nothing throws after the first was. -/
theorem runBatch_answers_iff (few : batch.length < 2 ^ 64) (fresh : Fresh settlement batch) (filled : batch ≠ []) :
    Answers config surroundings batch settlement ↔ Prompt config surroundings batch :=
  ⟨prompt_of_answers few fresh filled, answers_of_prompt few fresh filled⟩

end Batches

section Pair

def pairBatch : List (Request ℚ) := [⟨0, [1]⟩, ⟨1, [-2]⟩]

/-- An engine that returns two rows, and an allocation that fails. -/
def shortage (failing : Nat) : Surroundings ℚ where
  allocate := .ok ()
  inferBatch _ := .ok ⟨[2, 1], [3, 4], rfl, by decide⟩
  vector i := if i = failing then .error .badAlloc else .ok ()
  lock := .ok ()

theorem pairBatch_fresh : Fresh {} pairBatch := ⟨by decide, nofun⟩

theorem runBatch_answers_iff_pair : Answers ⟨2, 0, 1⟩ (shortage 0) pairBatch {} := by
  obtain ⟨input, packed⟩ : ∃ input, packBatch ⟨2, 0, 1⟩ pairBatch = .ok input := ⟨_, rfl⟩
  exact (runBatch_answers_iff (by decide) pairBatch_fresh (by decide)).mpr (.threw (.first rfl packed rfl rfl rfl))

/-- When the second vector cannot be built the first promise has its value, the second never gets one,
and the handler throws. -/
theorem runBatch_second_unanswered : ¬Answers ⟨2, 0, 1⟩ (shortage 1) pairBatch {} ∧
    run (runBatch ⟨2, 0, 1⟩ (shortage 1) pairBatch) {} =
      (.error (.thrown .promiseAlreadySatisfied), { outcomes := [(0, .ok [3])] }) := by
  have ran : run (runBatch ⟨2, 0, 1⟩ (shortage 1) pairBatch) {} =
      (.error (.thrown .promiseAlreadySatisfied), { outcomes := [(0, .ok [3])] }) := rfl
  refine ⟨fun ⟨after, outcomes, returned, _⟩ => ?_, ran⟩
  cases ran.symm.trans returned

end Pair

end Batcher
end FromScratch.Inference
