import FromScratch.Proofs.DatasetFile
import FromScratch.Proofs.ExportedNetwork

/-! What `eval` counts and what `run` prints. For an exported network it is a matter
of the network and the images alone, however the engine is set up. -/

namespace FromScratch.Inference.Cli
open Lib (FiniteMap upTo)
open Lib.Rows (joined joined_succ joined_congr length_joined row_joined)

section Argmax
variable {F : Type} [LinearOrder F]

/-- No value is larger, and those before it are smaller. -/
def FirstLargest (values : List F) (k : Nat) : Prop :=
  ∃ largest, values[k]? = some largest ∧ (∀ value ∈ values, value ≤ largest) ∧ ∀ value ∈ values.take k, value < largest

theorem FirstLargest.unique {values : List F} {k l : Nat} (first : FirstLargest values k) (second : FirstLargest values l) :
    k = l := by
  obtain ⟨here, found, most, before⟩ := first
  obtain ⟨there, seen, best, earlier⟩ := second
  have same : here = there := le_antisymm (best here (List.mem_of_getElem? found)) (most there (List.mem_of_getElem? seen))
  subst same
  have inside {i j : Nat} (less : i < j) (value : values[i]? = some here) : here ∈ values.take j :=
    List.mem_of_getElem? ((List.getElem?_take_of_lt less).trans value)
  rcases Nat.lt_trichotomy k l with less | equal | more
  · exact absurd (earlier here (inside less found)) (lt_irrefl here)
  · exact equal
  · exact absurd (before here (inside more seen)) (lt_irrefl here)

/-- The scan has found the first of the largest among those it has passed. -/
theorem maxElement_first {seen values : List F} {k : Nat} {largest : F} (found : seen[k]? = some largest)
    (most : ∀ value ∈ seen, value ≤ largest) (before : ∀ value ∈ seen.take k, value < largest) :
    FirstLargest (seen ++ values) (maxElement (k, largest) seen.length values).1 := by
  induction values generalizing seen k largest with
  | nil =>
    rw [List.append_nil]
    exact ⟨largest, found, most, before⟩
  | cons value values ih =>
    have split : seen ++ value :: values = (seen ++ [value]) ++ values := (List.append_cons ..)
    have length : (seen ++ [value]).length = seen.length + 1 := List.length_append
    rw [maxElement, split, ← length]
    have inside : k < seen.length := (List.getElem?_eq_some_iff.mp found).1
    split_ifs with larger
    · apply ih
      · exact List.getElem?_concat_length
      · rw [List.forall_mem_append]
        exact ⟨fun other member => (most other member).trans larger.le, fun other member => by
          rw [List.mem_singleton.mp member]⟩
      · rw [List.take_left]
        exact fun other member => (most other member).trans_lt larger
    · apply ih
      · rw [List.getElem?_append_left inside, found]
      · rw [List.forall_mem_append]
        exact ⟨most, fun other member => by rw [List.mem_singleton.mp member]; exact not_lt.mp larger⟩
      · rw [List.take_append_of_le_length inside.le]
        exact before

theorem argmax_first {values : List F} (filled : values ≠ []) : FirstLargest values (argmax values) := by
  cases values with
  | nil => exact absurd rfl filled
  | cons value values =>
    apply @maxElement_first F _ [value] values 0 value rfl
    · intro other member
      rw [List.mem_singleton.mp member]
    · exact nofun

end Argmax

/-- What the network is given of an image. -/
def Sample.input (normalize : UInt8 → ℚ) (sample : Sample) (p : Fin 784) : ℚ := normalize (sample.image.getD p 0)

/-- The network puts the label first. -/
def Sample.Recognized (net : Net ℚ) (normalize : UInt8 → ℚ) (sample : Sample) : Prop :=
  FirstLargest (List.ofFn (net.forward (sample.input normalize))) sample.label.toNat

theorem recognized_iff {net : Net ℚ} {normalize : UInt8 → ℚ} {sample : Sample} :
    argmax (List.ofFn (net.forward (sample.input normalize))) = sample.label.toNat ↔ sample.Recognized net normalize := by
  have first := @argmax_first ℚ _ (List.ofFn (net.forward (sample.input normalize))) (by simp)
  constructor
  · intro same
    rwa [same] at first
  · exact fun recognized => first.unique recognized

instance (net : Net ℚ) (normalize : UInt8 → ℚ) (sample : Sample) : Decidable (sample.Recognized net normalize) :=
  decidable_of_iff _ recognized_iff

section Batch
variable {testSet : List Sample} {normalize : UInt8 → ℚ} {offset current : Nat}

/-- The images of a batch. -/
def batchImages (normalize : UInt8 → ℚ) (testSet : List Sample) (offset i : Nat) : Fin 784 → ℚ :=
  match testSet[offset + i]? with
  | some sample => sample.input normalize
  | none => fun _ => 0

theorem batchImages_eq {i : Nat} {sample : Sample} (here : testSet[offset + i]? = some sample) :
    batchImages normalize testSet offset i = sample.input normalize := by
  rw [batchImages, here]

theorem pixel_of {i p : Nat} {sample : Sample} (sized : ∀ sample ∈ testSet, sample.image.length = kImagePixels)
    (here : testSet[i]? = some sample) (inside : p < kImagePixels) :
    Lib.read Fault.undefined (Dataset.ofSamples testSet).pixels (i * kImagePixels + p) = .ok (sample.image.getD p 0) := by
  have below : i < testSet.length := (List.getElem?_eq_some_iff.mp here).1
  have widths : ∀ k, k < testSet.length → ((testSet[k]?.map Sample.image).getD []).length = kImagePixels := by
    intro k bound
    rw [List.getElem?_eq_getElem bound]
    exact sized _ (List.getElem_mem bound)
  have pixels : (Dataset.ofSamples testSet).pixels = joined testSet.length fun k => (testSet[k]?.map Sample.image).getD [] :=
    InferenceEngine.flatMap_joined testSet Sample.image
  have within : i * kImagePixels + p < (Dataset.ofSamples testSet).pixels.length := by
    rw [pixels, length_joined widths]
    calc i * kImagePixels + p < (i + 1) * kImagePixels := by rw [Nat.succ_mul]; omega
      _ ≤ testSet.length * kImagePixels := Nat.mul_le_mul_right _ below
  rw [(Lib.settles_read Fault.undefined _ _ 0).ok within, pixels, Lib.Rows.getD_joined widths below inside, here]
  rfl

/-- One more element is written behind those that are. -/
theorem written_next {input next : Tensor ℚ} {k : Nat} {value : ℚ} {done : List ℚ} (inside : k < input.data.length)
    (written : input.data.take k = done) (changed : next.data = input.data.set k value) :
    next.data.take (k + 1) = done ++ [value] := by
  rw [changed, List.take_succ_eq_append_getElem
    (by rwa [List.length_set]), List.getElem_set_self, List.take_set_of_le le_rfl,
    written]

theorem fillBatch_ok (fit : Exportable testSet) (room : offset + current ≤ testSet.length) {input : Tensor ℚ}
    (length : input.data.length = current * kImagePixels) :
    ∃ filled, fillBatch normalize (.ofSamples testSet) offset current input = .ok filled ∧ filled.shape = input.shape ∧
      filled.data = joined current fun i => List.ofFn (batchImages normalize testSet offset i) := by
  let rows (i : Nat) : List ℚ := List.ofFn (batchImages normalize testSet offset i)
  -- The first `k` elements are in their place.
  let placed (done : List ℚ) (k : Nat) (filled : Tensor ℚ) : Prop :=
    filled.shape = input.shape ∧ filled.data.length = current * kImagePixels ∧ filled.data.take k = done
  have all : ∃ filled, fillBatch normalize (.ofSamples testSet) offset current input = .ok filled ∧
      placed (joined current rows) (current * kImagePixels) filled := by
    refine @Lib.upTo_run (Tensor ℚ) Fault _ (fun i => placed (joined i rows) (i * kImagePixels)) 0 current (Nat.zero_le _)
      (fun i _ inside filled kept => ?_) input ⟨rfl, length, by rw [Nat.zero_mul]; rfl⟩
    have bound : offset + i < testSet.length := by omega
    have here : testSet[offset + i]? = some testSet[offset + i] := List.getElem?_eq_getElem bound
    have row : rows i = List.ofFn (testSet[offset + i].input normalize) := by rw [← batchImages_eq here]
    have wide : (rows i).length = kImagePixels := List.length_ofFn
    have one : ∃ next, upTo 0 kImagePixels (fun p input => do
        let pixel ← Lib.read .undefined (Dataset.ofSamples testSet).pixels ((offset + i) * kImagePixels + p)
        input.modify (i * kImagePixels + p) fun _ => normalize pixel) filled = .ok next ∧
          placed (joined i rows ++ (rows i).take kImagePixels) (i * kImagePixels + kImagePixels) next := by
      refine @Lib.upTo_run (Tensor ℚ) Fault _ (fun p => placed (joined i rows ++ (rows i).take p) (i * kImagePixels + p)) 0
        kImagePixels (Nat.zero_le _) (fun p _ column filled kept => ?_) filled ?_
      · obtain ⟨shape, length, data⟩ := kept
        have within : i * kImagePixels + p < filled.data.length := by
          rw [length]
          calc i * kImagePixels + p < (i + 1) * kImagePixels := by rw [Nat.succ_mul]; omega
            _ ≤ current * kImagePixels := Nat.mul_le_mul_right _ inside
        obtain ⟨next, changed, same, set⟩ :=
          Tensor.modify_of_lt within fun _ => normalize (testSet[offset + i].image.getD p 0)
        refine ⟨next, ?_, same.trans shape, by rw [set, List.length_set, length], ?_⟩
        · rw [pixel_of fit.sized here column]
          exact changed
        · have cell : (rows i)[p]? = some (normalize (testSet[offset + i].image.getD p 0)) := by
            rw [row, List.getElem?_ofFn]
            exact dif_pos column
          rw [← Nat.add_assoc, written_next within data set, List.append_assoc, List.take_add_one, cell]
          rfl
      · rw [List.take_zero, List.append_nil, Nat.add_zero]
        exact kept
    rw [joined_succ, Nat.succ_mul, ← List.take_of_length_le (Nat.le_of_eq wide)]
    exact one
  obtain ⟨filled, ran, shape, whole, data⟩ := all
  refine ⟨filled, ran, shape, ?_⟩
  rwa [← whole, List.take_length] at data

theorem countCorrect_ok {net : Net ℚ} {n : UInt64} (room : offset + n.toNat ≤ testSet.length) {output : Tensor ℚ}
    (holds : Holds n (fun i => net.forward (batchImages normalize testSet offset i)) output) (correct : Nat) :
    countCorrect (.ofSamples testSet) offset n.toNat output 10 correct =
      .ok (correct + ((testSet.drop offset).take n.toNat).countP fun sample => sample.Recognized net normalize) := by
  have fits := output.fits
  rw [holds.length] at fits
  have each : ∃ after, countCorrect (.ofSamples testSet) offset n.toNat output 10 correct = .ok after ∧
      after = correct + ((testSet.drop offset).take n.toNat).countP fun sample => sample.Recognized net normalize := by
    refine @Lib.upTo_run Nat Fault _ (fun i count => count = correct + ((testSet.drop offset).take i).countP
      fun sample => sample.Recognized net normalize) 0 n.toNat (Nat.zero_le _) (fun i _ inside count same => ?_) correct rfl
    have bound : offset + i < testSet.length := by omega
    have here : testSet[offset + i]? = some testSet[offset + i] := List.getElem?_eq_getElem bound
    have label : Lib.read Fault.undefined (Dataset.ofSamples testSet).labels (offset + i) =
      .ok testSet[offset + i].label := by
      change Lib.read _ (testSet.map Sample.label) (offset + i) = _
      unfold Lib.read
      rw [List.getElem?_map, here]
      rfl
    have first : (UInt64.ofNat i * 10).toNat = i * 10 := by
      rw [UInt64.toNat_mul, UInt64.toNat_ofNat', Nat.mod_eq_of_lt (by omega : i < 2 ^ 64)]
      exact Nat.mod_eq_of_lt (show i * 10 < 2 ^ 64 by omega)
    have last : (UInt64.ofNat i * 10 + 10).toNat = i * 10 + 10 := by
      rw [UInt64.toNat_add, first]
      exact Nat.mod_eq_of_lt (show i * 10 + 10 < 2 ^ 64 by omega)
    have row : output.slice (UInt64.ofNat i * 10) (UInt64.ofNat i * 10 + 10) =
        .ok (List.ofFn (net.forward (testSet[offset + i].input normalize))) := by
      have inner : UInt64.ofNat i * 10 ≤ UInt64.ofNat i * 10 + 10 ∧
          (UInt64.ofNat i * 10 + 10).toNat ≤ output.data.length := by
        rw [UInt64.le_iff_toNat_le, first, last, holds.length]
        omega
      rw [Tensor.slice, if_pos inner, first, last, holds.data, List.drop_take, Nat.add_sub_cancel_left,
        row_joined (fun i _ => List.length_ofFn) inside, batchImages_eq here]
    have further : (testSet.drop offset).take (i + 1) = (testSet.drop offset).take i ++ [testSet[offset + i]] := by
      rw [List.take_add_one, List.getElem?_drop, here]
      rfl
    refine ⟨_, ?_, rfl⟩
    rw [row, label, further, List.countP_append, ← Nat.add_assoc, ← same, List.countP_singleton]
    change Except.ok _ = Except.ok _
    simp only [recognized_iff, decide_eq_true_eq]
    split_ifs <;> rfl
  obtain ⟨after, ran, rfl⟩ := each
  exact ran

/-- Between two batches: the images before the offset are counted. -/
structure Counted (net : Net ℚ) (normalize : UInt8 → ℚ) (testSet : List Sample) (ready : Model ℚ) (session : Session ℚ)
    (slots : Slots ℚ) (offset : Nat) (state : Evaluation ℚ) : Prop where
  shape : ∃ extent : UInt64, state.input.shape = [extent, UInt64.ofNat kImagePixels]
  settled : InferenceSession.Settled ready session slots state.tensors
  correct : state.correct = (testSet.take offset).countP fun sample => sample.Recognized net normalize

variable {net : Net ℚ} {provider : Provider} {session : Session ℚ} {ready : Model ℚ} {slots : Slots ℚ} {maxBatch : UInt64}

theorem evaluateBatch_ok (fit : Exportable testSet) (scheduled : InferenceSession.Scheduled ready session slots)
    (answers : Exporter.Answers net provider session ready slots) {batchSize : Nat} (positive : 0 < batchSize)
    (few : batchSize ≤ maxBatch.toNat) (inside : offset < testSet.length) {state : Evaluation ℚ}
    (counted : Counted net normalize testSet ready session slots offset state) (call : InferenceSession.Call ℚ) :
    ∃ next, evaluateBatch normalize maxBatch provider session call (.ofSamples testSet) batchSize offset state = .ok next ∧
      Counted net normalize testSet ready session slots (min (offset + batchSize) testSet.length) next := by
  have size := fit.few
  obtain ⟨extent, shape⟩ := counted.shape
  obtain ⟨current, chosen⟩ : ∃ current, current = min batchSize (testSet.length - offset) := ⟨_, rfl⟩
  have count : (UInt64.ofNat current).toNat = current := by
    rw [UInt64.toNat_ofNat', Nat.mod_eq_of_lt (by omega)]
  -- A tensor of another size is replaced by one that has not been written yet.
  obtain ⟨blank, made, blankShape⟩ : ∃ blank, inputFor current state.input = .ok blank ∧
      blank.shape = [UInt64.ofNat current, UInt64.ofNat kImagePixels] := by
    have first : state.input.dim 0 = .ok extent := by
      rw [Tensor.dim, shape]
      rfl
    rw [inputFor, first]
    change ∃ blank, (if UInt64.ofNat current ≠ extent then _ else _) = _ ∧ _
    split_ifs with same
    · have fits : (computeSize [UInt64.ofNat current, UInt64.ofNat kImagePixels]).toNat * 4 < 2 ^ 64 := by
        rw [Tensor.size_pair, count, show (UInt64.ofNat kImagePixels).toNat = 784 from rfl, Nat.mod_eq_of_lt (by omega)]
        omega
      exact ⟨_, by rw [Tensor.filled, dif_pos fits], rfl⟩
    · exact ⟨state.input, rfl, by rw [not_not.mp same, shape]⟩
  have length : blank.data.length = current * kImagePixels := by
    rw [blank.sized, blankShape, Tensor.size_pair, count, show (UInt64.ofNat kImagePixels).toNat = kImagePixels from rfl]
    exact Nat.mod_eq_of_lt (by simp only [kImagePixels]; omega)
  obtain ⟨input, filled, inputShape, data⟩ := @fillBatch_ok testSet normalize offset current fit (by omega) blank length
  have images : input.data = joined (UInt64.ofNat current).toNat fun i =>
    List.ofFn (batchImages normalize testSet offset i) := by
    rw [count, data]
  obtain ⟨after, output, ran, holds⟩ := answers (UInt64.ofNat current) (batchImages normalize testSet offset) input
    [UInt64.ofNat kImagePixels] (by omega) (inputShape.trans blankShape) rfl images call state.tensors counted.settled
  have taken : UInt64.ofNat current ≤ maxBatch := by
    rw [UInt64.le_iff_toNat_le, count]
    omega
  have answered := (InferenceEngine.inferBatch_ok_iff (inputShape.trans blankShape)).mpr ⟨taken, ran⟩
  have classes : output.dim 1 = .ok 10 := by
    rw [Tensor.dim, holds.shape]
    rfl
  have correct := @countCorrect_ok testSet normalize offset net (UInt64.ofNat current) (by omega) output holds state.correct
  rw [count] at correct
  refine ⟨⟨input, after, state.correct + ((testSet.drop offset).take current).countP
    fun sample => sample.Recognized net normalize⟩, ?_, ⟨_, inputShape.trans blankShape⟩,
    scheduled.run_settled counted.settled ran, ?_⟩
  · rw [evaluateBatch, show (Dataset.ofSamples testSet).count = testSet.length from rfl, ← chosen, made]
    change (fillBatch normalize (.ofSamples testSet) offset current blank >>= fun input => _) = _
    rw [filled]
    change (InferenceEngine.inferBatch maxBatch provider session call input state.tensors >>= fun answer => _) = _
    rw [answered]
    change (output.dim 1 >>= fun classes => _) = _
    rw [classes]
    change (countCorrect (.ofSamples testSet) offset current output 10 state.correct >>= fun correct => _) = _
    rw [correct]
    rfl
  · have reached : min (offset + batchSize) testSet.length = offset + current := by omega
    rw [reached, List.take_add, List.countP_append, counted.correct]

end Batch

section Commands

/-- `eval` counts the images whose label the network puts first: for every batch
size the engine takes, with every kernel, schedule and degree of parallelism, with
the optimizer on or off, and whatever the engine answered before. -/
theorem eval_counts (net : Net ℚ) (walk : FiniteMap.Traversal Text (NodeEntry ℚ)) (config : SessionConfig)
    (platform : Platform ℚ) (initializers : FiniteMap.Traversal Text (Tensor ℚ)) (provider : Provider) (maxBatch : UInt64)
    (normalize : UInt8 → ℚ) :
    ∃ session slots, InferenceSession.prepare config platform initializers provider (Exporter.model walk net) =
        .ok (session, slots) ∧
      ∀ testSet, Exportable testSet → ∀ batchSize, 0 < batchSize → batchSize ≤ maxBatch.toNat →
        batchSize * kImagePixels * 4 < 2 ^ 64 → ∀ call tensors, InferenceEngine.Reached provider session slots tensors →
          ∃ after, evaluate normalize maxBatch provider session call (.ofSamples testSet) batchSize tensors =
            .ok (after, ⟨testSet.countP fun sample => sample.Recognized net normalize, testSet.length⟩) := by
  obtain ⟨ready, session, slots, made, scheduled, answers⟩ :=
    Exporter.exists_session net walk config platform initializers provider
  refine ⟨session, slots, made, fun testSet fit batchSize positive few fits call tensors reached => ?_⟩
  have size := fit.few
  simp only [kImagePixels] at fits
  have count : (UInt64.ofNat batchSize).toNat = batchSize := by
    rw [UInt64.toNat_ofNat', Nat.mod_eq_of_lt (by omega)]
  have room : (computeSize [UInt64.ofNat batchSize, UInt64.ofNat kImagePixels]).toNat * 4 < 2 ^ 64 := by
    rw [Tensor.size_pair, count, show (UInt64.ofNat kImagePixels).toNat = 784 from rfl, Nat.mod_eq_of_lt (by omega)]
    exact fits
  obtain ⟨blank, allocated, shape⟩ : ∃ blank : Tensor ℚ,
      Tensor.filled [UInt64.ofNat batchSize, UInt64.ofNat kImagePixels] Scalar.zero = .ok blank ∧
        blank.shape = [UInt64.ofNat batchSize, UInt64.ofNat kImagePixels] :=
    ⟨_, by rw [Tensor.filled, dif_pos room], rfl⟩
  obtain ⟨last, ran, counted⟩ := @Lib.stepping_run (Evaluation ℚ) Fault batchSize 0 testSet.length (2 ^ 64) .endless
    (fun offset => evaluateBatch normalize maxBatch provider session (call offset) (.ofSamples testSet) batchSize offset)
    (Counted net normalize testSet ready session slots) positive (by omega) testSet.length
    (by rw [Nat.zero_add]; exact Nat.le_mul_of_pos_right _ positive)
    (fun offset inside state counted => evaluateBatch_ok fit scheduled answers positive few inside counted (call offset))
    ⟨blank, tensors, 0⟩ (Nat.zero_le _)
    ⟨⟨_, shape⟩, InferenceEngine.reached_settled scheduled reached, rfl⟩
  refine ⟨last.tensors, ?_⟩
  rw [evaluate, if_neg (Nat.ne_of_gt positive), allocated]
  change (Lib.stepping batchSize (2 ^ 64) testSet.length Fault.endless
    (fun offset => evaluateBatch normalize maxBatch provider
    session (call offset) (.ofSamples testSet) batchSize offset) (testSet.length + 1) 0 (Evaluation.mk blank tensors 0) >>=
      fun state => _) = _
  rw [ran]
  have all := counted.correct
  rw [List.take_length] at all
  exact congrArg (fun correct => Except.ok (last.tensors, EvalResult.mk correct testSet.length)) all

/-- `run` prints the digit the network puts first, and takes images of 784 bytes only. -/
theorem run_prints (net : Net ℚ) (walk : FiniteMap.Traversal Text (NodeEntry ℚ)) (config : SessionConfig)
    (platform : Platform ℚ) (initializers : FiniteMap.Traversal Text (Tensor ℚ)) (provider : Provider)
    (normalize : UInt8 → ℚ) :
    ∃ session slots, InferenceSession.prepare config platform initializers provider (Exporter.model walk net) =
        .ok (session, slots) ∧
      ∀ raw warm call tensors, InferenceEngine.Reached provider session slots tensors →
        (raw.length = kImagePixels → ∃ digit, runSingle normalize provider session warm call raw tensors = .ok digit ∧
          ∀ label, digit = label.toNat ↔ (Sample.mk raw label).Recognized net normalize) ∧
        (raw.length ≠ kImagePixels → ∃ what,
          runSingle normalize provider session warm call raw tensors = .error (.runtimeError what)) := by
  obtain ⟨ready, session, slots, made, scheduled, answers⟩ :=
    Exporter.exists_session net walk config platform initializers provider
  refine ⟨session, slots, made, fun raw warm call tensors reached => ⟨fun whole => ?_, fun part => ⟨_, if_pos part⟩⟩⟩
  let image : Fin 784 → ℚ := fun p => normalize (raw.getD p 0)
  have length : (raw.map normalize).length = 784 := by rw [List.length_map, whole]; rfl
  obtain ⟨input, placed, shape, data⟩ : ∃ input, Tensor.ofValues [1, 28, 28] (raw.map normalize) = .ok input ∧
      input.shape = [1, 28, 28] ∧ input.data = raw.map normalize := by
    refine ⟨⟨[1, 28, 28], raw.map normalize, length, by rw [length]; decide⟩, ?_, rfl, rfl⟩
    rw [Tensor.ofValues, dif_pos (by rw [length]; rfl), dif_pos (by rw [length]; decide)]
  have row : input.data = joined (1 : UInt64).toNat fun _ => List.ofFn image := by
    rw [data]
    change _ = List.flatMap _ [0]
    rw [List.flatMap_singleton]
    refine List.ext_getElem (by rw [length, List.length_ofFn]) fun p first second => ?_
    rw [List.length_map] at first
    rw [List.getElem_map, List.getElem_ofFn, show image ⟨p, _⟩ = normalize (raw.getD p 0) from rfl,
      List.getD_eq_getElem _ _ first]
  have settled := InferenceEngine.reached_settled scheduled reached
  obtain ⟨after, first, warmed, _⟩ := answers 1 (fun _ => image) input [28,
    28] (by decide) shape rfl row warm tensors settled
  obtain ⟨last, output, ran, holds⟩ := answers 1 (fun _ => image) input [28, 28] (by decide) shape rfl row call after
    (scheduled.run_settled settled warmed)
  have logits : output.data = List.ofFn (net.forward image) := by
    rw [holds.data]
    change List.flatMap _ [0] = _
    rw [List.flatMap_singleton]
  refine ⟨argmax output.data, ?_, fun label => ?_⟩
  · rw [runSingle, if_neg (not_not.mpr whole), placed]
    change (InferenceSession.run provider session warm input tensors >>= fun found => _) = _
    rw [warmed]
    change (InferenceSession.run provider session call input after >>= fun found => _) = _
    rw [ran]
    rfl
  · rw [logits]
    exact @recognized_iff net normalize ⟨raw, label⟩

end Commands

end FromScratch.Inference.Cli
