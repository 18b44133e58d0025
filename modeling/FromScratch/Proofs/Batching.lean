import FromScratch.Inference.Batcher
import FromScratch.Inference.Loader
import FromScratch.Lib.Machine
import FromScratch.Proofs.GraphTables

/-! The dynamic batcher over whole runs: whoever's turn it is, the batches cut the
accepted requests in the order of their acceptance, every promise is answered once
with what its own row of the batch gave, and nobody is left waiting. -/

namespace FromScratch.Inference
open Lib.Machine (outputs after)

variable {F : Type}

section Buffers
variable {tensor output : Tensor F}

theorem Tensor.copyAt_ok {written : Tensor F} {offset : UInt64} {values : List F}
    (made : tensor.copyAt offset values = .ok written) :
    offset.toNat + values.length ≤ tensor.data.length ∧ written.shape = tensor.shape ∧
      written.data = tensor.data.take offset.toNat ++ values ++ tensor.data.drop (offset.toNat + values.length) := by
  rw [Tensor.copyAt] at made
  split at made
  next inside =>
    cases made
    exact ⟨inside, rfl, rfl⟩
  next => cases made

theorem Tensor.slice_ok {first last : UInt64} {values : List F} (made : tensor.slice first last = .ok values) :
    first.toNat ≤ last.toNat ∧ last.toNat ≤ tensor.data.length ∧
      values = (tensor.data.take last.toNat).drop first.toNat := by
  rw [Tensor.slice] at made
  split at made
  next inside =>
    cases made
    exact ⟨UInt64.le_iff_toNat_le.mp inside.1, inside.2, rfl⟩
  next => cases made

end Buffers

namespace Batcher

section Packing
variable {config : BatcherConfig} {batch : List (Request F)} {input output : Tensor F}

/-- As long as the rows are in the buffer their offsets do not wrap. -/
theorem offset_toNat {i bound : Nat} {extent : UInt64} (inside : i * extent.toNat ≤ bound) (fits : bound * 4 < 2 ^ 64)
    (small : i < 2 ^ 64) : (UInt64.ofNat i * extent).toNat = i * extent.toNat := by
  rw [UInt64.toNat_mul, UInt64.toNat_ofNat', Nat.mod_eq_of_lt small, Nat.mod_eq_of_lt]
  omega

theorem size_rows {n : Nat} (small : n < 2 ^ 64) (extent : UInt64) :
    (computeSize [UInt64.ofNat n, extent]).toNat = n * extent.toNat % 2 ^ 64 := by
  rw [Tensor.size_pair, UInt64.toNat_ofNat', Nat.mod_eq_of_lt small]

/-- What has been copied after some rows. -/
theorem copied_rows {copied : Tensor F} {rest : List (Request F)}
    (sized : ∀ request ∈ rest, request.features.length = config.featureCount.toNat)
    {k : Nat} (few : k + rest.length < 2 ^ 64) (inside : k * config.featureCount.toNat ≤ input.data.length)
    (ran : (rest.zipIdx k).foldlM (fun input (request, i) => input.copyAt
    (UInt64.ofNat i * config.featureCount) request.features) input =
      .ok copied) :
    copied.shape = input.shape ∧ copied.data.length = input.data.length ∧
      (k + rest.length) * config.featureCount.toNat ≤ input.data.length ∧
      copied.data.take ((k + rest.length) * config.featureCount.toNat) =
        input.data.take (k * config.featureCount.toNat) ++ rest.flatMap Request.features := by
  induction rest generalizing k input with
  | nil =>
    cases ran
    exact ⟨rfl, rfl, inside, by simp⟩
  | cons request rest ih =>
    obtain ⟨wide, others⟩ := List.forall_mem_cons.mp sized
    rw [List.zipIdx_cons, List.foldlM_cons] at ran
    obtain ⟨middle, first, ran⟩ := Lib.bind_ok ran
    obtain ⟨room, shape, data⟩ := Tensor.copyAt_ok first
    rw [List.length_cons] at few
    rw [offset_toNat inside input.fits (by omega), wide] at room data
    have next : (k + 1) * config.featureCount.toNat = k * config.featureCount.toNat + config.featureCount.toNat :=
      Nat.succ_mul _ _
    have long : middle.data.length = input.data.length := by
      rw [data, List.length_append, List.length_append, List.length_take, List.length_drop, wide]
      omega
    obtain ⟨same, length, reached, rows⟩ := ih others (by omega) (by rw [long, next]; exact room) ran
    have count : k + (rest.length + 1) = k + 1 + rest.length := by omega
    rw [List.length_cons, count, rows, List.flatMap_cons]
    refine ⟨same.trans shape, length.trans long, reached.trans_eq long, ?_⟩
    rw [next, data, List.take_left' (by rw [List.length_append, List.length_take, wide]; omega), List.append_assoc]

/-- The rows of the batch are the features of the requests. -/
theorem packBatch_ok [Scalar F] (sized : ∀ request ∈ batch, request.features.length = config.featureCount.toNat)
    (few : batch.length < 2 ^ 64) (made : packBatch config batch = .ok input) :
    input.shape = [UInt64.ofNat batch.length, config.featureCount] ∧ input.data = batch.flatMap Request.features := by
  obtain ⟨fresh, filled, ran⟩ := Lib.bind_ok made
  obtain ⟨shape, data⟩ := Tensor.filled_ok filled
  obtain ⟨same, length, inside, rows⟩ :=
    copied_rows sized (k := 0) (by rwa [Nat.zero_add]) (by rw [Nat.zero_mul]; exact Nat.zero_le _) ran
  have size : fresh.data.length ≤ batch.length * config.featureCount.toNat := by
    rw [data, List.length_replicate, size_rows few]
    exact Nat.mod_le _ _
  rw [Nat.zero_add] at inside rows
  refine ⟨same.trans shape, ?_⟩
  rw [List.take_of_length_le (length.trans_le size)] at rows
  rw [rows, Nat.zero_mul]
  rfl

/-- A batch that cannot be packed ends outside the buffer. -/
theorem packBatch_error [Scalar F] {fault : Fault} (failed : packBatch config batch = .error fault) :
    fault = .undefined := by
  have walk : ∀ (rest : List (Request F × Nat)) (copied : Tensor F),
      rest.foldlM (fun input (request, i) => input.copyAt (UInt64.ofNat i * config.featureCount) request.features) copied =
        .error fault → fault = .undefined := by
    intro rest
    induction rest with
    | nil => exact nofun
    | cons pair rest ih =>
      intro copied ran
      rw [List.foldlM_cons] at ran
      rcases Lib.bind_error ran with first | ⟨next, _, others⟩
      · change copied.copyAt (UInt64.ofNat pair.2 * config.featureCount) pair.1.features = _ at first
        rw [Tensor.copyAt] at first
        split at first
        · cases first
        · exact (Except.error.inj first).symm
      · exact ih next others
  rcases Lib.bind_error failed with first | ⟨fresh, _, ran⟩
  · rw [Tensor.filled] at first
    split at first
    · cases first
    · exact (Except.error.inj first).symm
  · exact walk _ fresh ran

/-- The logits of a request are its row of the output. -/
theorem sliceBatch_ok {n : Nat} (few : n < 2 ^ 64) {logits : List (List F)} (made : sliceBatch n output = .ok logits) :
    ∃ classes : UInt64, output.shape = [UInt64.ofNat n, classes] ∧ n * classes.toNat ≤ output.data.length ∧
      logits = (List.range n).map fun i => (output.data.drop (i * classes.toNat)).take classes.toNat := by
  rw [sliceBatch] at made
  split at made
  · cases made
  next planar =>
    obtain ⟨first, extent, made⟩ := Lib.bind_ok made
    split at made
    · cases made
    next tall =>
      obtain ⟨classes, width, made⟩ := Lib.bind_ok made
      have shape : output.shape = [UInt64.ofNat n, classes] := by
        obtain ⟨rows, cols, same⟩ := List.length_eq_two.mp (not_not.mp planar)
        rw [Tensor.dim, same] at extent width
        cases extent
        cases width
        rw [same, not_not.mp tall]
      obtain ⟨length, each⟩ := List.forall₂_iff_get.mp (Lib.mapM_ok made)
      rw [List.length_range] at length
      have sliced : ∀ i (below : i < n), output.slice (UInt64.ofNat i * classes) ((UInt64.ofNat i + 1) * classes) =
          .ok (logits.get ⟨i, length ▸ below⟩) := by
        intro i below
        have found := each i (by rwa [List.length_range]) (length ▸ below)
        rwa [List.get_eq_getElem, List.getElem_range] at found
      have ends : ∀ i < n, i * classes.toNat ≤ output.data.length → (UInt64.ofNat i * classes).toNat = i * classes.toNat ∧
          ((UInt64.ofNat i + 1) * classes).toNat = (i + 1) * classes.toNat := by
        intro i below here
        have start := offset_toNat here output.fits (by omega)
        obtain ⟨ordered, _, _⟩ := Tensor.slice_ok (sliced i below)
        have product : ((UInt64.ofNat i + 1) * classes).toNat = (i + 1) * classes.toNat % 2 ^ 64 := by
          rw [UInt64.toNat_mul, UInt64.toNat_add, UInt64.toNat_ofNat', Nat.mod_eq_of_lt (show i < 2 ^ 64 by omega)]
          exact congrArg (· * classes.toNat % 2 ^ 64) (Nat.mod_eq_of_lt (by omega : i + 1 < 2 ^ 64))
        refine ⟨start, product.trans ?_⟩
        -- the next row would begin before this one if its offset wrapped
        have small := classes.toNat_lt
        have fits := output.fits
        rw [start, product, Nat.succ_mul] at ordered
        rw [Nat.succ_mul]
        omega
      have inside : ∀ i ≤ n, i * classes.toNat ≤ output.data.length := by
        intro i
        induction i with
        | zero => exact fun _ => by omega
        | succ i ih =>
          intro below
          have reached := (Tensor.slice_ok (sliced i below)).2.1
          rwa [(ends i below (ih (by omega))).2] at reached
      refine ⟨classes, shape, inside n le_rfl, List.ext_getElem (by rw [← length, List.length_map, List.length_range]) ?_⟩
      intro i here there
      rw [← length] at here
      have values := (Tensor.slice_ok (sliced i here)).2.2
      obtain ⟨first, last⟩ := ends i here (inside i (by omega))
      rw [first, last, List.drop_take, Nat.succ_mul, Nat.add_sub_cancel_left, List.get_eq_getElem] at values
      rw [values, List.getElem_map, List.getElem_range]

/-- A row that lies in the buffer is read. -/
theorem slice_inside {i : Nat} {classes : UInt64} (small : i < 2 ^ 64)
    (inside : (i + 1) * classes.toNat ≤ output.data.length) :
    output.slice (UInt64.ofNat i * classes) ((UInt64.ofNat i + 1) * classes) =
      .ok ((output.data.drop (i * classes.toNat)).take classes.toNat) := by
  have fits := output.fits
  have next : (i + 1) * classes.toNat = i * classes.toNat + classes.toNat := Nat.succ_mul _ _
  have start := offset_toNat (show i * classes.toNat ≤ output.data.length by omega) fits small
  have stop : ((UInt64.ofNat i + 1) * classes).toNat = (i + 1) * classes.toNat := by
    rw [UInt64.toNat_mul, UInt64.toNat_add, UInt64.toNat_ofNat', Nat.mod_eq_of_lt small]
    rcases Nat.lt_or_ge (i + 1) (2 ^ 64) with less | more
    · rw [show (1 : UInt64).toNat = 1 from rfl, Nat.mod_eq_of_lt less, Nat.mod_eq_of_lt (by omega)]
    · rcases Nat.eq_zero_or_pos classes.toNat with empty | filled
      · rw [empty, Nat.mul_zero, Nat.mul_zero]
      · have := Nat.le_mul_of_pos_right (i + 1) filled
        omega
  rw [Tensor.slice, start, stop, if_pos ⟨UInt64.le_iff_toNat_le.mpr
    (by rw [start, stop, next]; omega), inside⟩, List.drop_take, next,
    Nat.add_sub_cancel_left]

theorem extents {rows classes : UInt64} (shape : output.shape = [rows, classes]) :
    ¬output.rank ≠ 2 ∧ output.dim 0 = .ok rows ∧ output.dim 1 = .ok classes := by
  rw [Tensor.rank, Tensor.dim, Tensor.dim, shape]
  exact ⟨not_not.mpr rfl, rfl, rfl⟩

theorem sliceBatch_eq {n : Nat} {classes : UInt64} (shape : output.shape = [UInt64.ofNat n, classes]) :
    sliceBatch n output = (List.range n).mapM fun i =>
      output.slice (UInt64.ofNat i * classes) ((UInt64.ofNat i + 1) * classes) := by
  obtain ⟨planar, first, second⟩ := extents shape
  rw [sliceBatch, if_neg planar, first, second]
  exact if_neg (not_not.mpr rfl)

/-- An output with a row for every request is sliced. -/
theorem sliceBatch_rows {n : Nat} {classes : UInt64} (few : n < 2 ^ 64) (shape : output.shape = [UInt64.ofNat n, classes])
    (inside : n * classes.toNat ≤ output.data.length) :
    sliceBatch n output = .ok ((List.range n).map fun i => (output.data.drop (i * classes.toNat)).take classes.toNat) := by
  rw [sliceBatch_eq shape]
  refine Lib.mapM_returns fun i member => ?_
  have below := List.mem_range.mp member
  exact slice_inside (by omega) ((Nat.mul_le_mul_right _ below).trans inside)

/-- An output is refused for its shape, or its rows are not all in the buffer. -/
theorem sliceBatch_error {n : Nat} {fault : Fault} (failed : sliceBatch n output = .error fault) :
    (∀ classes, output.shape ≠ [UInt64.ofNat n, classes]) ∧
        fault = .runtimeError (text "Batched output has unexpected shape") ∨
      (∃ classes, output.shape = [UInt64.ofNat n, classes]) ∧ fault = .undefined := by
  by_cases expected : ∃ classes, output.shape = [UInt64.ofNat n, classes]
  · refine .inr ⟨expected, ?_⟩
    obtain ⟨classes, shape⟩ := expected
    rw [sliceBatch_eq shape] at failed
    obtain ⟨i, _, outside⟩ := Lib.mapM_error failed
    rw [Tensor.slice] at outside
    split at outside
    · cases outside
    · exact (Except.error.inj outside).symm
  · refine .inl ⟨not_exists.mp expected, ?_⟩
    rw [sliceBatch] at failed
    split at failed
    · exact (Except.error.inj failed).symm
    next planar =>
      obtain ⟨rows, classes, shape⟩ := List.length_eq_two.mp (not_not.mp planar)
      obtain ⟨_, first, _⟩ := extents shape
      rw [first] at failed
      change (if rows ≠ UInt64.ofNat n then throw _ else _) = _ at failed
      split at failed
      · exact (Except.error.inj failed).symm
      next tall => exact absurd ⟨classes, shape.trans (by rw [not_not.mp tall])⟩ expected

/-- As long as there is room the rows are copied. -/
theorem copied_fits {rest : List (Request F)}
    (sized : ∀ request ∈ rest, request.features.length = config.featureCount.toNat)
    {k : Nat} (few : k + rest.length < 2 ^ 64) (inside : (k + rest.length) * config.featureCount.toNat ≤ input.data.length) :
    ∃ copied, (rest.zipIdx k).foldlM (fun input (request, i) => input.copyAt
      (UInt64.ofNat i * config.featureCount) request.features) input = .ok copied := by
  induction rest generalizing k input with
  | nil => exact ⟨input, rfl⟩
  | cons request rest ih =>
    obtain ⟨wide, others⟩ := List.forall_mem_cons.mp sized
    rw [List.length_cons] at few inside
    have before : k * config.featureCount.toNat ≤ input.data.length :=
      (Nat.mul_le_mul_right _ (Nat.le_add_right _ _)).trans inside
    have next : (k + 1) * config.featureCount.toNat ≤ input.data.length :=
      (Nat.mul_le_mul_right _ (by omega)).trans inside
    have room : (UInt64.ofNat k * config.featureCount).toNat + request.features.length ≤ input.data.length := by
      rw [offset_toNat before input.fits (by omega), wide, ← Nat.succ_mul]
      exact next
    obtain ⟨written, copied⟩ : ∃ written, input.copyAt (UInt64.ofNat k * config.featureCount) request.features =
      .ok written :=
      ⟨_, dif_pos room⟩
    obtain ⟨_, _, data⟩ := Tensor.copyAt_ok copied
    have long : written.data.length = input.data.length := by
      rw [data, List.length_append, List.length_append, List.length_take, List.length_drop]
      omega
    have rows : k + 1 + rest.length = k + (rest.length + 1) := by omega
    obtain ⟨done, ran⟩ := @ih written others (k + 1) (by omega) (by rw [rows, long]; exact inside)
    refine ⟨done, ?_⟩
    rw [List.zipIdx_cons, List.foldlM_cons]
    change (input.copyAt (UInt64.ofNat k * config.featureCount) request.features >>= _) = _
    rw [copied]
    exact ran

/-- A batch that fits is packed. -/
theorem packBatch_fits [Scalar F] (sized : ∀ request ∈ batch, request.features.length = config.featureCount.toNat)
    (few : batch.length < 2 ^ 64) (fits : batch.length * config.featureCount.toNat * 4 < 2 ^ 64) :
    ∃ input, packBatch config batch = .ok input := by
  have size : (computeSize [UInt64.ofNat batch.length, config.featureCount]).toNat =
      batch.length * config.featureCount.toNat := by
    rw [size_rows few, Nat.mod_eq_of_lt (by omega)]
  obtain ⟨fresh, filled⟩ : ∃ fresh : Tensor F,
      Tensor.filled [UInt64.ofNat batch.length, config.featureCount] Scalar.zero = .ok fresh :=
    ⟨_, dif_pos (by rwa [size])⟩
  obtain ⟨_, data⟩ := Tensor.filled_ok filled
  have inside : (0 + batch.length) * config.featureCount.toNat ≤ fresh.data.length := by
    rw [Nat.zero_add, data, List.length_replicate, size]
  obtain ⟨input, copied⟩ := copied_fits sized (by rwa [Nat.zero_add]) inside
  refine ⟨input, ?_⟩
  rw [packBatch, filled]
  exact copied

end Packing

section Turns
variable [Scalar F] {config : BatcherConfig} {batcher next : Batcher F} {event : BatcherEvent F}

/-- What a turn can do. -/
inductive Turn (config : BatcherConfig) (batcher : Batcher F) : BatcherEvent F → Batcher F → Prop
  | accept (features : List F) (sized : features.length = config.featureCount.toNat) (running : batcher.stopping = false) :
      Turn config batcher (.accepted ⟨batcher.promises, features⟩) { batcher with
        queue := batcher.queue ++ [⟨batcher.promises, features⟩]
        promises := batcher.promises + 1
        notifying := batcher.notifying + 1 }
  | refuse (fault : Fault) : Turn config batcher (.refused fault) batcher
  | nobody : Turn config batcher .nobody batcher
  | stay : Turn config batcher .turned batcher
  | stop (running : batcher.stopping = false) :
      Turn config batcher .turned { batcher with stopping := true, notifying := batcher.notifying + 1 }
  | hear (less : Nat) : Turn config batcher .turned { batcher with notifying := less, worker := wake batcher.worker }
  | expire {notified : Bool} (here : batcher.worker = .delaying notified false) :
      Turn config batcher .turned { batcher with worker := .delaying notified true }
  | sleep (here : batcher.worker = .looping ∨ batcher.worker = .waiting true) (running : batcher.stopping = false)
      (empty : batcher.queue = []) : Turn config batcher .turned { batcher with worker := .waiting false }
  | leave (here : batcher.worker = .looping ∨ batcher.worker = .waiting true) (stopping : batcher.stopping = true)
      (empty : batcher.queue = []) : Turn config batcher .turned { batcher with worker := .returned }
  | delay (here : (batcher.worker = .looping ∨ batcher.worker = .waiting true) ∧ batcher.queue ≠ [] ∨
      ∃ notified expired, batcher.worker = .delaying notified expired) :
      Turn config batcher .turned { batcher with worker := .delaying false false }
  | take (here : (batcher.worker = .looping ∨ batcher.worker = .waiting true) ∧ batcher.queue ≠ [] ∨
      ∃ notified expired, batcher.worker = .delaying notified expired) :
      Turn config batcher (.took (batcher.queue.take config.limit.toNat)) { batcher with
        queue := batcher.queue.drop config.limit.toNat
        worker := if batcher.queue.take config.limit.toNat = [] then .looping else
          .inferring (batcher.queue.take config.limit.toNat) }
  | infer {batch : List (Request F)} {input : Tensor F} (returned : Except Fault (Tensor F))
      (here : batcher.worker = .inferring batch) (packed : packBatch config batch = .ok input) :
      Turn config batcher (.inferred batch input returned) { batcher with
        worker := settle batch (returned >>= sliceBatch batch.length) }
  | overrun {batch : List (Request F)} {fault : Fault} (here : batcher.worker = .inferring batch)
      (packed : packBatch config batch = .error fault) :
      Turn config batcher .turned { batcher with worker := settle batch (.error fault) }
  | answer {promise : Nat} {answer : Answer F} {left : List (Nat × Answer F)} {counted : Option Nat}
      (here : batcher.worker = .answering ((promise, answer) :: left) counted) :
      Turn config batcher (.answered promise answer) { batcher with worker := .answering left counted }
  | report {counted : Option Nat} (here : batcher.worker = .answering [] counted) :
      Turn config batcher .turned { batcher with
        stats := counted.elim batcher.stats batcher.stats.count
        worker := .looping }

theorem look_turn (here : batcher.worker = .looping ∨ batcher.worker = .waiting true) :
    Turn config batcher (look config batcher).1 (look config batcher).2 := by
  rw [look]
  split
  next idle => exact .sleep here (Bool.eq_false_iff.mpr idle.1) idle.2
  next =>
    split
    next done => exact .leave here done.1 done.2
    next busy idle =>
      have filled : batcher.queue ≠ [] := by
        intro empty
        exact busy ⟨fun stopping => idle ⟨stopping, empty⟩, empty⟩
      split
      · exact .delay (.inl ⟨here, filled⟩)
      · exact .take (.inl ⟨here, filled⟩)

theorem work_turn : Turn config batcher (work config batcher).1 (work config batcher).2 := by
  rw [work]
  split
  next here => exact look_turn (.inl here)
  next here => exact look_turn (.inr here)
  next notified expired here =>
    split
    · exact .nobody
    · split
      · exact .take (.inr ⟨notified, expired, here⟩)
      · exact .delay (.inr ⟨notified, expired, here⟩)
  next here => exact .answer here
  next here => exact .report here
  next => exact .nobody

theorem step_turn (action : BatcherAction F) :
    Turn config batcher (step config batcher action).1 (step config batcher action).2 := by
  cases action with
  | enqueue features =>
    rw [step]
    cases made : enqueue config features batcher with
    | error fault => exact .refuse fault
    | ok accepted =>
      rw [enqueue] at made
      split at made
      · cases made
      next sized =>
        split at made
        · cases made
        next running =>
          cases made
          exact .accept features (not_not.mp sized) (Bool.eq_false_iff.mpr running)
  | stop =>
    rw [step, stop]
    split
    · exact .stay
    next running => exact .stop (Bool.eq_false_iff.mpr running)
  | notify =>
    rw [step]
    split
    · exact .hear _
    · exact .nobody
  | wakeSpuriously => exact .hear batcher.notifying
  | expire =>
    rw [step]
    split
    next here => exact .expire here
    next => exact .nobody
  | infer returned =>
    rw [step]
    split
    next here =>
      split
      next packed => exact .infer returned here packed
      next packed => exact .overrun here packed
    next => exact .nobody
  | work => exact work_turn

end Turns

section Served

/-- The requests that were accepted, in this order. -/
def accepted (events : List (BatcherEvent F)) : List (Request F) :=
  events.filterMap fun | .accepted request => some request | _ => none

def taken (events : List (BatcherEvent F)) : List (List (Request F)) :=
  events.filterMap fun | .took batch => some batch | _ => none

def answers (events : List (BatcherEvent F)) : List (Nat × Answer F) :=
  events.filterMap fun | .answered promise answer => some (promise, answer) | _ => none

/-- The promises of the batch in hand. -/
def owed : Worker F → List Nat
  | .inferring batch => batch.map Request.promise
  | .answering left _ => left.map Prod.fst
  | _ => []

def prepared : Worker F → List (Nat × Answer F)
  | .answering left _ => left
  | _ => []

/-- What the request at this place of the batch gets. -/
def Delivered (result : Except Fault (List (List F))) (i : Nat) : Answer F → Prop
  | .ok values => ∃ logits, result = .ok logits ∧ logits[i]? = some values
  | .error fault => fault.Thrown ∧ result = .error fault

variable [Scalar F] {config : BatcherConfig} {batcher next : Batcher F} {event : BatcherEvent F}
    {events : List (BatcherEvent F)}
  {promise : Nat} {answer : Answer F}

/-- The answer is what the engine made of the batch, at the place of the request. -/
def Own (config : BatcherConfig) (events : List (BatcherEvent F)) (promise : Nat) (answer : Answer F) : Prop :=
  ∃ batch ∈ taken events, ∃ i request input returned, batch[i]? = some request ∧ request.promise = promise ∧
    .inferred batch input returned ∈ events ∧ packBatch config batch = .ok input ∧
      Delivered (returned >>= sliceBatch batch.length) i answer

structure Served (config : BatcherConfig) (events : List (BatcherEvent F)) (batcher : Batcher F) : Prop where
  segments : accepted events = (taken events).flatten ++ batcher.queue
  numbered : (accepted events).map Request.promise = List.range batcher.promises
  sized : ∀ request ∈ accepted events, request.features.length = config.featureCount.toNat
  bounded : ∀ batch ∈ taken events, 0 < batch.length ∧ batch.length ≤ config.limit.toNat
  settled : ∃ rest, (answers events).map Prod.fst ++ rest = (taken events).flatten.map Request.promise ∧
    (batcher.worker ≠ .lost → rest = owed batcher.worker)
  own : ∀ promise answer, (promise, answer) ∈ answers events ∨ (promise, answer) ∈ prepared batcher.worker →
    Own config events promise answer
  gathering : ∀ notified expired, batcher.worker = .delaying notified expired → batcher.queue ≠ []
  inferring : ∀ batch, batcher.worker = .inferring batch → batch ∈ taken events
  returned : batcher.worker = .returned → batcher.stopping = true ∧ batcher.queue = []
  roused : batcher.worker = .waiting false → batcher.stopping = true ∨ batcher.queue ≠ [] → 0 < batcher.notifying

theorem Own.mono (own : Own config events promise answer) (event : BatcherEvent F) :
    Own config (events ++ [event]) promise answer := by
  obtain ⟨batch, member, i, request, input, returned, here, same, inferred, packed, delivered⟩ := own
  refine ⟨batch, ?_, i, request, input, returned, here, same, List.mem_append_left _ inferred, packed, delivered⟩
  rw [taken, List.filterMap_append]
  exact List.mem_append_left _ member

omit [Scalar F] in
theorem limit_pos (config : BatcherConfig) : 0 < config.limit.toNat := by
  rw [BatcherConfig.limit]
  split
  · decide
  next nonzero => exact Nat.pos_of_ne_zero fun zero => nonzero (UInt64.toNat_inj.mp zero)

omit [Scalar F] in
/-- What the worker holds after the engine has returned. -/
theorem settle_cases (batch : List (Request F)) (result : Except Fault (List (List F)))
    (long : ∀ logits, result = .ok logits → logits.length = batch.length) :
    settle batch result = .lost ∨ ∃ left counted, settle batch result = .answering left counted ∧
      left.map Prod.fst = batch.map Request.promise ∧ ∀ promise answer, (promise, answer) ∈ left →
        ∃ (i : Nat) (request : Request F), batch[i]? = some request ∧ request.promise = promise ∧
          Delivered result i answer := by
  cases result with
  | ok logits =>
    refine .inr ⟨_, _, rfl, List.map_fst_zip (by simp [long logits rfl]), fun promise answer member => ?_⟩
    obtain ⟨i, inside, same⟩ := List.getElem_of_mem member
    rw [List.getElem_zip, List.getElem_map, List.getElem_map, Prod.mk.injEq] at same
    obtain ⟨rfl, rfl⟩ := same
    rw [List.length_zip, List.length_map, List.length_map] at inside
    exact ⟨i, _, List.getElem?_eq_getElem (by omega), rfl, logits, rfl, List.getElem?_eq_getElem (by omega)⟩
  | error fault =>
    rw [settle]
    split
    next thrown =>
      refine .inr ⟨_, _, rfl, by rw [List.map_map]; rfl, fun promise answer member => ?_⟩
      obtain ⟨request, inside, same⟩ := List.mem_map.mp member
      obtain ⟨i, here⟩ := List.getElem?_of_mem inside
      cases same
      exact ⟨i, request, here, rfl, thrown, rfl⟩
    next => exact .inl rfl

/-- An event that nobody counts. -/
def Silent : BatcherEvent F → Prop
  | .refused _ | .turned | .nobody => True
  | _ => False

omit [Scalar F] in
theorem silent_counts (silent : Silent event) : accepted (events ++ [event]) = accepted events ∧
    taken (events ++ [event]) = taken events ∧ answers (events ++ [event]) = answers events := by
  cases event with
  | refused fault => simp [accepted, taken, answers]
  | turned => simp [accepted, taken, answers]
  | nobody => simp [accepted, taken, answers]
  | _ => cases silent

/-- A turn that leaves the queue and the promises. -/
theorem Served.silent (served : Served config events batcher) (silent : Silent event) (queue : next.queue = batcher.queue)
    (promises : next.promises = batcher.promises)
    (settled : next.worker ≠ .lost → batcher.worker ≠ .lost ∧ owed next.worker = owed batcher.worker)
    (held : ∀ pair ∈ prepared next.worker, pair ∈ prepared batcher.worker)
    (gathering : ∀ notified expired, next.worker = .delaying notified expired → next.queue ≠ [])
    (inferring : ∀ batch, next.worker = .inferring batch → batcher.worker = .inferring batch)
    (returned : next.worker = .returned → next.stopping = true ∧ next.queue = [])
    (roused : next.worker = .waiting false → next.stopping = true ∨ next.queue ≠ [] → 0 < next.notifying) :
    Served config (events ++ [event]) next := by
  obtain ⟨same, batches, told⟩ := @silent_counts F event events silent
  refine ⟨?_, ?_, ?_, ?_, ?_, fun promise answer here => ?_, gathering, fun batch here => ?_, returned, roused⟩
  · rw [same, batches, queue]
    exact served.segments
  · rw [same, promises]
    exact served.numbered
  · rw [same]
    exact served.sized
  · rw [batches]
    exact served.bounded
  · obtain ⟨rest, cut, known⟩ := served.settled
    rw [told, batches]
    refine ⟨rest, cut, fun here => ?_⟩
    obtain ⟨there, debts⟩ := settled here
    exact (known there).trans debts.symm
  · rw [told] at here
    exact (served.own promise answer (here.imp_right fun member => held _ member)).mono event
  · rw [batches]
    exact served.inferring batch (inferring batch here)

/-- A turn that changes nothing. -/
theorem Served.same (served : Served config events batcher) (silent : Silent event) :
    Served config (events ++ [event]) batcher :=
  served.silent silent rfl rfl (fun here => ⟨here, rfl⟩) (fun _ => id) served.gathering
    (fun _ => id) served.returned served.roused

/-- A turn of a worker that has no batch in hand and will have none. -/
theorem Served.moved (served : Served config events batcher) (worker : Worker F) (stats : BatcherStats)
    (before : batcher.worker ≠ .lost ∧ owed batcher.worker = []) (after : owed worker = [] ∧ prepared worker = [])
    (gathering : ∀ notified expired, worker = .delaying notified expired → batcher.queue ≠ [])
    (inferring : ∀ batch, worker ≠ .inferring batch)
    (returned : worker = .returned → batcher.stopping = true ∧ batcher.queue = [])
    (roused : worker = .waiting false → batcher.stopping = false ∧ batcher.queue = []) :
    Served config (events ++ [.turned]) { batcher with worker, stats } := by
  refine served.silent trivial rfl rfl (fun _ => ⟨before.1, after.1.trans before.2.symm⟩) (fun pair member => ?_) gathering
    (fun batch here => absurd here (inferring batch)) returned fun here busy => ?_
  · rw [show prepared _ = [] from after.2] at member
    cases member
  · obtain ⟨running, empty⟩ := roused here
    rcases busy with stopping | filled
    · exact absurd (running.symm.trans stopping) (by decide)
    · exact absurd empty filled

theorem Served.accept (served : Served config events batcher) {features : List F}
    (sized : features.length = config.featureCount.toNat) (running : batcher.stopping = false) :
    Served config (events ++ [.accepted ⟨batcher.promises, features⟩]) { batcher with
      queue := batcher.queue ++ [⟨batcher.promises, features⟩]
      promises := batcher.promises + 1
      notifying := batcher.notifying + 1 } := by
  have one : accepted (events ++ [.accepted ⟨batcher.promises, features⟩]) = accepted events ++
    [⟨batcher.promises, features⟩] := by
    simp [accepted]
  have batches : taken (events ++ [.accepted ⟨batcher.promises, features⟩]) = taken events := by simp [taken]
  have told : answers (events ++ [.accepted ⟨batcher.promises, features⟩]) = answers events := by simp [answers]
  refine ⟨?_, ?_, ?_, ?_, ?_, fun promise answer here => ?_,
    fun _ _ _ => List.append_ne_nil_of_right_ne_nil _ (List.cons_ne_nil _ _),
    fun batch here => ?_, fun here => ?_, fun _ _ => Nat.succ_pos _⟩
  · rw [one, batches, served.segments, List.append_assoc]
  · rw [one, List.map_append, served.numbered, List.range_succ]
    rfl
  · rw [one]
    exact List.forall_mem_append.mpr ⟨served.sized, List.forall_mem_singleton.mpr sized⟩
  · rw [batches]
    exact served.bounded
  · rw [told, batches]
    exact served.settled
  · rw [told] at here
    exact (served.own promise answer here).mono _
  · rw [batches]
    exact served.inferring batch here
  · exact absurd (running.symm.trans (served.returned here).1) (by decide)

theorem Served.take (served : Served config events batcher) (free : batcher.worker ≠ .lost ∧ owed batcher.worker = [])
    (filled : batcher.queue ≠ []) : Served config (events ++ [.took (batcher.queue.take config.limit.toNat)]) { batcher with
      queue := batcher.queue.drop config.limit.toNat
      worker := .inferring (batcher.queue.take config.limit.toNat) } := by
  have one : taken (events ++ [.took (batcher.queue.take config.limit.toNat)]) =
      taken events ++ [batcher.queue.take config.limit.toNat] := by simp [taken]
  have same : accepted (events ++ [.took (batcher.queue.take config.limit.toNat)]) = accepted events := by simp [accepted]
  have told : answers (events ++ [.took (batcher.queue.take config.limit.toNat)]) = answers events := by simp [answers]
  refine ⟨?_, ?_, ?_, ?_, ?_, fun promise answer here => ?_, nofun, fun batch here => ?_, nofun, nofun⟩
  · rw [same, one, served.segments, List.flatten_append, List.flatten_singleton, List.append_assoc, List.take_append_drop]
  · rw [same]
    exact served.numbered
  · rw [same]
    exact served.sized
  · rw [one]
    refine List.forall_mem_append.mpr ⟨served.bounded, List.forall_mem_singleton.mpr ⟨?_, ?_⟩⟩
    · have positive := limit_pos config
      have long := List.length_pos_iff.mpr filled
      rw [List.length_take]
      omega
    · exact List.length_take_le _ _
  · obtain ⟨rest, cut, known⟩ := served.settled
    rw [told, one]
    refine ⟨(batcher.queue.take config.limit.toNat).map Request.promise, ?_, fun _ => rfl⟩
    rw [known free.1, free.2, List.append_nil] at cut
    rw [cut, List.flatten_append, List.flatten_singleton, List.map_append]
  · rw [told] at here
    rcases here with member | member
    · exact (served.own promise answer (.inl member)).mono _
    · cases member
  · cases here
    rw [one]
    exact List.mem_append_right _ List.mem_cons_self

/-- The requests of a batch are as long as the features are counted. -/
theorem Served.batch (served : Served config events batcher) {batch : List (Request F)} (member : batch ∈ taken events) :
    batch.length < 2 ^ 64 ∧ ∀ request ∈ batch, request.features.length = config.featureCount.toNat := by
  refine ⟨(served.bounded batch member).2.trans_lt config.limit.toNat_lt, fun request inside => served.sized request ?_⟩
  rw [served.segments]
  exact List.mem_append_left _ (List.mem_flatten.mpr ⟨batch, member, inside⟩)

theorem Served.infer (served : Served config events batcher) {batch : List (Request F)} {input : Tensor F}
    (returned : Except Fault (Tensor F)) (here : batcher.worker = .inferring batch)
    (packed : packBatch config batch = .ok input) :
    Served config (events ++ [.inferred batch input returned]) { batcher with
      worker := settle batch (returned >>= sliceBatch batch.length) } := by
  have same : accepted (events ++ [.inferred batch input returned]) = accepted events := by simp [accepted]
  have batches : taken (events ++ [.inferred batch input returned]) = taken events := by simp [taken]
  have told : answers (events ++ [.inferred batch input returned]) = answers events := by simp [answers]
  have member := served.inferring batch here
  have long : ∀ logits, (returned >>= sliceBatch batch.length) = .ok logits → logits.length = batch.length := by
    intro logits made
    obtain ⟨output, _, sliced⟩ := Lib.bind_ok made
    obtain ⟨_, _, _, rfl⟩ := sliceBatch_ok (served.batch member).1 sliced
    rw [List.length_map, List.length_range]
  obtain ⟨rest, cut, known⟩ := served.settled
  have debts : rest = batch.map Request.promise := by
    rw [known (by rw [here]; exact nofun), here]
    rfl
  have settled := settle_cases batch _ long
  refine ⟨?_, ?_, ?_, ?_, ⟨rest, ?_, ?_⟩, fun promise answer mine => ?_, ?_, ?_, ?_, ?_⟩
  · rw [same, batches]
    exact served.segments
  · rw [same]
    exact served.numbered
  · rw [same]
    exact served.sized
  · rw [batches]
    exact served.bounded
  · rw [told, batches]
    exact cut
  · intro alive
    rcases settled with gone | ⟨left, counted, now, promises, _⟩
    · exact absurd gone alive
    · rw [debts, ← promises]
      exact (congrArg owed now).symm
  · rw [told] at mine
    rcases mine with old | new
    · exact (served.own promise answer (.inl old)).mono _
    · rcases settled with gone | ⟨left, counted, now, _, each⟩
      · rw [show settle _ _ = _ from gone] at new
        cases new
      · rw [show settle _ _ = _ from now] at new
        obtain ⟨i, request, inside, same, delivered⟩ := each promise answer new
        refine ⟨batch, ?_, i, request, input, returned, inside, same, List.mem_append_right _ List.mem_cons_self,
          packed, delivered⟩
        rw [batches]
        exact member
  all_goals
    rcases settled with gone | ⟨left, counted, now, _⟩
    · first
      | exact fun here => nomatch gone.symm.trans here
      | exact fun _ _ here => nomatch gone.symm.trans here
      | exact fun _ here => nomatch gone.symm.trans here
    · first
      | exact fun here => nomatch now.symm.trans here
      | exact fun _ _ here => nomatch now.symm.trans here
      | exact fun _ here => nomatch now.symm.trans here

theorem Served.answered (served : Served config events batcher) {left : List (Nat × Answer F)} {counted : Option Nat}
    (here : batcher.worker = .answering ((promise, answer) :: left) counted) :
    Served config (events ++ [.answered promise answer]) { batcher with worker := .answering left counted } := by
  have same : accepted (events ++ [.answered promise answer]) = accepted events := by simp [accepted]
  have batches : taken (events ++ [.answered promise answer]) = taken events := by simp [taken]
  have told : answers (events ++ [.answered promise answer]) = answers events ++ [(promise, answer)] := by simp [answers]
  obtain ⟨rest, cut, known⟩ := served.settled
  have debts : rest = promise :: left.map Prod.fst := by
    rw [known (by rw [here]; exact nofun), here]
    rfl
  refine ⟨?_, ?_, ?_, ?_, ⟨left.map Prod.fst, ?_, fun _ => rfl⟩, fun other value mine => Own.mono ?_ _, nofun, nofun,
    nofun, nofun⟩
  · rw [same, batches]
    exact served.segments
  · rw [same]
    exact served.numbered
  · rw [same]
    exact served.sized
  · rw [batches]
    exact served.bounded
  · rw [told, batches, List.map_append, List.append_assoc, ← cut, debts]
    rfl
  · rw [told, List.mem_append, List.mem_singleton, or_assoc] at mine
    refine served.own other value (mine.imp_right fun member => ?_)
    rw [here]
    exact List.mem_cons.mpr member

/-- What one turn preserves. -/
theorem Served.turn (served : Served config events batcher) (turn : Turn config batcher event next) :
    Served config (events ++ [event]) next := by
  have free : batcher.worker = .looping ∨ batcher.worker = .waiting true → batcher.worker ≠ .lost ∧
    owed batcher.worker = [] := by
    rintro (here | here) <;> rw [here] <;> exact ⟨nofun, rfl⟩
  have idle : ((batcher.worker = .looping ∨ batcher.worker = .waiting true) ∧ batcher.queue ≠ [] ∨
      ∃ notified expired, batcher.worker = .delaying notified expired) →
      (batcher.worker ≠ .lost ∧ owed batcher.worker = []) ∧ batcher.queue ≠ [] := by
    rintro (⟨here, filled⟩ | ⟨notified, expired, here⟩)
    · exact ⟨free here, filled⟩
    · exact ⟨by rw [here]; exact ⟨nofun, rfl⟩, served.gathering notified expired here⟩
  cases turn with
  | accept features sized running => exact served.accept sized running
  | refuse fault => exact served.same trivial
  | nobody => exact served.same trivial
  | stay => exact served.same trivial
  | stop running =>
    refine served.silent trivial rfl rfl (fun here => ⟨here, rfl⟩) (fun _ => id) served.gathering (fun _ => id)
      (fun here => ?_)
      fun _ _ => Nat.succ_pos _
    exact absurd (running.symm.trans (served.returned here).1) (by decide)
  | hear less =>
    cases here : batcher.worker with
    | waiting notified =>
      exact served.silent trivial rfl rfl (fun _ => by rw [here]; exact ⟨nofun, rfl⟩) nofun nofun nofun nofun nofun
    | delaying notified expired =>
      refine served.silent trivial rfl rfl
        (fun _ => by rw [here]; exact ⟨nofun, rfl⟩) nofun (fun _ _ _ => ?_) nofun nofun nofun
      exact served.gathering notified expired here
    | _ =>
      have same : wake batcher.worker = batcher.worker := by rw [here]; rfl
      rw [← here, same]
      exact served.silent trivial rfl rfl (fun alive => ⟨alive, rfl⟩) (fun _ => id) served.gathering
        (fun _ => id) served.returned
        fun asleep => nomatch here.symm.trans asleep
  | expire here =>
    refine served.moved _ batcher.stats (by rw [here]; exact ⟨nofun, rfl⟩) ⟨rfl, rfl⟩ (fun _ _ _ => ?_) nofun nofun nofun
    exact served.gathering _ _ here
  | sleep here running empty =>
    exact served.moved (.waiting false) batcher.stats (free here) ⟨rfl, rfl⟩ nofun nofun nofun fun _ => ⟨running, empty⟩
  | leave here stopping empty =>
    exact served.moved .returned batcher.stats (free here) ⟨rfl, rfl⟩ nofun nofun (fun _ => ⟨stopping, empty⟩) nofun
  | delay here =>
    obtain ⟨free, filled⟩ := idle here
    exact served.moved _ batcher.stats free ⟨rfl, rfl⟩ (fun _ _ _ => filled) nofun nofun nofun
  | take here =>
    obtain ⟨free, filled⟩ := idle here
    have nonempty : batcher.queue.take config.limit.toNat ≠ [] := by
      rw [Ne, List.take_eq_nil_iff]
      exact not_or.mpr ⟨(limit_pos config).ne', filled⟩
    rw [if_neg nonempty]
    exact served.take free filled
  | infer returned here packed => exact served.infer returned here packed
  | @overrun batch fault here packed =>
    cases packBatch_error packed
    exact served.silent trivial rfl rfl (fun alive => absurd rfl alive) nofun nofun nofun nofun nofun
  | answer here => exact served.answered here
  | report here => exact served.moved .looping _ (by rw [here]; exact ⟨nofun, rfl⟩) ⟨rfl, rfl⟩ nofun nofun nofun nofun

theorem served_after (config : BatcherConfig) (actions : List (BatcherAction F)) :
    Served config (outputs (step config) {} actions) (after (step config) {} actions) := by
  refine Lib.Machine.invariant_outputs ?_ (fun _ _ action served => served.turn (step_turn action)) actions
  refine ⟨rfl, rfl, nofun, nofun, ⟨[], rfl, fun _ => rfl⟩, fun promise answer member => ?_, nofun, nofun, nofun, nofun⟩
  rcases member with member | member <;> cases member

end Served

section Stopping
variable [Scalar F] {config : BatcherConfig} {batcher next : Batcher F} {event : BatcherEvent F}
    {events : List (BatcherEvent F)}

theorem Turn.stopped (turn : Turn config batcher event next) (stopping : batcher.stopping = true) :
    next.stopping = true ∧ accepted (events ++ [event]) = accepted events := by
  cases turn with
  | accept features sized running => exact absurd (running.symm.trans stopping) (by decide)
  | stop running => exact ⟨rfl, by simp [accepted]⟩
  | _ => exact ⟨stopping, by simp [accepted]⟩

/-- Nothing is accepted once the batcher is stopping. -/
theorem accepted_stopped (actions : List (BatcherAction F)) (stopping : (after (step config) {} actions).stopping = true)
    (rest : List (BatcherAction F)) :
    (after (step config) {} (actions ++ rest)).stopping = true ∧
      accepted (outputs (step config) {} (actions ++ rest)) = accepted (outputs (step config) {} actions) := by
  induction rest using List.reverseRecOn with
  | nil => exact ⟨by rwa [List.append_nil], by rw [List.append_nil]⟩
  | append_singleton rest action ih =>
    rw [← List.append_assoc, Lib.Machine.after_concat, Lib.Machine.outputs_concat]
    obtain ⟨stays, same⟩ := (step_turn action).stopped ih.1
    exact ⟨stays, same.trans ih.2⟩

omit [Scalar F] in
theorem stop_stopping (batcher : Batcher F) : batcher.stop.stopping = true := by
  rw [stop]
  split
  next stopping => exact stopping
  next => rfl

end Stopping

section Progress
variable [Scalar F] {config : BatcherConfig} {batcher : Batcher F} {events : List (BatcherEvent F)}

/-- The turns that need no client. -/
def Internal : BatcherAction F → Prop
  | .notify | .expire | .infer _ | .work => True
  | _ => False

/-- Somebody takes the turn. -/
def Enabled (config : BatcherConfig) (batcher : Batcher F) (action : BatcherAction F) : Prop :=
  (step config batcher action).1 ≠ .nobody

def workerRank : Worker F → Nat
  | .looping => 4
  | .waiting notified => 3 + notified.toNat
  | .delaying notified expired => notified.toNat + if expired then 0 else 2
  | .inferring batch => 6 + batch.length
  | .answering left _ => 5 + left.length
  | .lost | .returned => 0

/-- How many turns are left if no client comes. -/
def rank (batcher : Batcher F) : Nat := 8 * batcher.queue.length + 2 * batcher.notifying + workerRank batcher.worker

omit [Scalar F] in
theorem look_enabled : (look config batcher).1 ≠ .nobody := by
  rw [look]
  split
  · exact nofun
  split
  · exact nofun
  split
  · exact nofun
  · exact nofun

/-- While a request is without an answer there is a turn to take. -/
theorem Served.alive (served : Served config events batcher) (found : batcher.worker ≠ .lost)
    (open_ : (answers events).length < (accepted events).length) :
    Enabled config batcher .notify ∨ Enabled config batcher .expire ∨ Enabled config batcher .work ∨
      ∀ returned, Enabled config batcher (.infer returned) := by
  obtain ⟨rest, cut, known⟩ := served.settled
  have count : (answers events).length + (owed batcher.worker).length + batcher.queue.length = (accepted events).length := by
    have lengths := congrArg List.length cut
    rw [List.length_append, List.length_map, List.length_map, known found] at lengths
    rw [served.segments, List.length_append, ← lengths]
  have working : ∀ worker, batcher.worker = worker → (work config { batcher with worker }).1 ≠ .nobody →
    Enabled config batcher .work := by
    rintro worker rfl enabled
    exact enabled
  cases here : batcher.worker with
  | looping => exact .inr (.inr (.inl (working _ here look_enabled)))
  | waiting notified =>
    cases notified with
    | true => exact .inr (.inr (.inl (working _ here look_enabled)))
    | false =>
      have filled : batcher.queue ≠ [] := by
        intro empty
        rw [here, empty] at count
        exact absurd count open_.ne
      have pending := served.roused here (.inr filled)
      refine .inl ?_
      rw [Enabled, step, if_pos pending]
      exact nofun
  | delaying notified expired =>
    cases expired with
    | false =>
      refine .inr (.inl ?_)
      rw [Enabled, step]
      simp only [here]
      exact nofun
    | true =>
      refine .inr (.inr (.inl (working _ here ?_)))
      rw [work]
      simp [takeBatch]
  | inferring batch =>
    refine .inr (.inr (.inr fun returned => ?_))
    rw [Enabled, step]
    simp only [here]
    split <;> exact nofun
  | answering left counted =>
    refine .inr (.inr (.inl (working _ here ?_)))
    cases left <;> exact nofun
  | lost => exact absurd here found
  | returned =>
    rw [here, (served.returned here).2] at count
    exact absurd count open_.ne

omit [Scalar F] in
theorem settle_rank (batch : List (Request F)) (result : Except Fault (List (List F))) :
    workerRank (settle batch result) < workerRank (.inferring batch) := by
  cases result with
  | ok logits =>
    rw [settle, workerRank, workerRank, List.length_zip, List.length_map, List.length_map]
    omega
  | error fault =>
    rw [settle]
    split
    · rw [workerRank, workerRank, List.length_map]
      omega
    · exact Nat.lt_of_lt_of_le (by decide : 0 < 6) (Nat.le_add_right _ _)

omit [Scalar F] in
theorem worker_rank {worker : Worker F} (stats : BatcherStats) (less : workerRank worker < workerRank batcher.worker) :
    rank { batcher with worker, stats } < rank batcher := by
  simp only [rank]
  omega

omit [Scalar F] in
theorem take_rank (filled : batcher.queue ≠ []) : rank (takeBatch config batcher).2 < rank batcher := by
  have positive := limit_pos config
  have long := List.length_pos_iff.mpr filled
  have nonempty : batcher.queue.take config.limit.toNat ≠ [] := by
    rw [Ne, List.take_eq_nil_iff]
    exact not_or.mpr ⟨positive.ne', filled⟩
  simp only [takeBatch, if_neg nonempty, rank, workerRank, List.length_drop, List.length_take]
  omega

omit [Scalar F] in
theorem wake_rank (worker : Worker F) : workerRank (wake worker) ≤ workerRank worker + 1 := by
  cases worker with
  | waiting notified => cases notified <;> simp [wake, workerRank]
  | delaying notified expired => cases notified <;> cases expired <;> simp [wake, workerRank]
  | _ => exact Nat.le_succ _

omit [Scalar F] in
theorem look_rank (here : 4 ≤ workerRank batcher.worker) : rank (look config batcher).2 < rank batcher := by
  rw [look]
  split
  · exact worker_rank batcher.stats (Nat.lt_of_lt_of_le (Nat.lt_succ_self 3) here)
  next idle =>
    split
    · exact worker_rank batcher.stats (Nat.lt_of_lt_of_le (Nat.succ_pos 3) here)
    next busy =>
      split
      · exact worker_rank batcher.stats (Nat.lt_of_lt_of_le (Nat.lt_of_succ_lt (Nat.lt_succ_self 3)) here)
      · refine take_rank fun empty => ?_
        exact idle ⟨fun stopping => busy ⟨stopping, empty⟩, empty⟩

theorem work_rank (served : Served config events batcher) (enabled : (work config batcher).1 ≠ .nobody) :
    rank (work config batcher).2 < rank batcher := by
  rw [work] at enabled ⊢
  split at enabled
  next here => exact look_rank (by rw [here]; exact le_rfl)
  next here => exact look_rank (by rw [here]; exact le_rfl)
  next notified expired here =>
    split at enabled
    · exact absurd rfl enabled
    next woken =>
      rw [if_neg woken]
      split
      · exact take_rank (served.gathering _ _ here)
      next early =>
        refine worker_rank batcher.stats ?_
        cases expired with
        | true => exact absurd (.inl rfl) early
        | false =>
          cases notified with
          | false => exact absurd ⟨Bool.false_ne_true, Bool.false_ne_true⟩ woken
          | true =>
            rw [here]
            exact Nat.lt_succ_self 2
  next here => exact worker_rank batcher.stats (by rw [here]; exact Nat.lt_succ_self _)
  next here => exact worker_rank _ (by rw [here]; exact Nat.lt_succ_self 4)
  next => exact absurd rfl enabled

/-- Without a client the turns come to an end. -/
theorem Served.falls (served : Served config events batcher) {action : BatcherAction F} (internal : Internal action)
    (enabled : Enabled config batcher action) : rank (step config batcher action).2 < rank batcher := by
  cases action with
  | enqueue features => cases internal
  | stop => cases internal
  | wakeSpuriously => cases internal
  | notify =>
    rw [Enabled, step] at enabled
    rw [step]
    split at enabled
    next pending =>
      have woken := wake_rank batcher.worker
      rw [if_pos pending]
      simp only [rank]
      omega
    next => exact absurd rfl enabled
  | expire =>
    rw [Enabled, step] at enabled
    rw [step]
    split at enabled
    next notified here =>
      refine worker_rank batcher.stats ?_
      rw [here]
      cases notified <;> simp [workerRank]
    next => exact absurd rfl enabled
  | infer returned =>
    rw [Enabled, step] at enabled
    rw [step]
    split at enabled
    next batch here =>
      split <;> exact worker_rank batcher.stats (by rw [here]; exact settle_rank batch _)
    next => exact absurd rfl enabled
  | work => exact work_rank served enabled

end Progress

section Coalescing
variable [Scalar F] {config : BatcherConfig} {batcher : Batcher F} {events : List (BatcherEvent F)}

/-- What the request at this place of a batch of `n` is answered: its row of an output
that has a row for every request, and an exception if there is no such output. -/
def RowOf (n i : Nat) (answer : Answer F) : Except Fault (Tensor F) → Prop
  | .ok output =>
    (∃ classes, output.shape = [UInt64.ofNat n, classes] ∧ n * classes.toNat ≤ output.data.length ∧
        answer = .ok ((output.data.drop (i * classes.toNat)).take classes.toNat)) ∨
      (∀ classes, output.shape ≠ [UInt64.ofNat n, classes]) ∧
        answer = .error (.runtimeError (text "Batched output has unexpected shape"))
  | .error fault => answer = .error fault

/-- The answer is the row that has the place of the request in its batch. -/
def OwnRow (config : BatcherConfig) (events : List (BatcherEvent F)) (promise : Nat) (answer : Answer F) : Prop :=
  ∃ batch ∈ taken events, ∃ (i : Nat) (request : Request F) (input : Tensor F) (returned : Except Fault (Tensor F)),
    batch[i]? = some request ∧ request.promise = promise ∧ .inferred batch input returned ∈ events ∧
    input.shape = [UInt64.ofNat batch.length, config.featureCount] ∧ input.data = batch.flatMap Request.features ∧
    RowOf batch.length i answer returned

/-- The batch does not fit its buffers, or the engine did not come back from it. -/
def Overran (config : BatcherConfig) (events : List (BatcherEvent F)) (batch : List (Request F)) : Prop :=
  2 ^ 64 ≤ batch.length * config.featureCount.toNat * 4 ∨
    ∃ input returned, .inferred batch input returned ∈ events ∧
      ((∃ fault, returned = .error fault ∧ ¬fault.Thrown) ∨ ∃ output classes, returned = .ok output ∧
        output.shape = [UInt64.ofNat batch.length, classes] ∧ output.data.length < batch.length * classes.toNat)

theorem Served.ownRow (served : Served config events batcher) {promise : Nat} {answer : Answer F}
    (told : (promise, answer) ∈ answers events) : OwnRow config events promise answer := by
  obtain ⟨batch, member, i, request, input, returned, here, same, inferred, packed, delivered⟩ :=
    served.own promise answer (.inl told)
  obtain ⟨few, sized⟩ := served.batch member
  obtain ⟨shape, data⟩ := packBatch_ok sized few packed
  refine ⟨batch, member, i, request, input, returned, here, same, inferred, shape, data, ?_⟩
  cases answer with
  | error fault =>
    obtain ⟨thrown, failed⟩ := delivered
    cases returned with
    | error other =>
      cases failed
      rfl
    | ok output =>
      rcases sliceBatch_error failed with ⟨unexpected, rfl⟩ | ⟨_, rfl⟩
      · exact .inr ⟨unexpected, rfl⟩
      · cases thrown
  | ok values =>
    obtain ⟨logits, made, found⟩ := delivered
    obtain ⟨output, rfl, sliced⟩ := Lib.bind_ok made
    obtain ⟨classes, shape, room, rfl⟩ := sliceBatch_ok few sliced
    refine .inl ⟨classes, shape, room, ?_⟩
    rw [List.getElem?_map] at found
    obtain ⟨j, index, rfl⟩ := Option.map_eq_some_iff.mp found
    rw [(List.getElem?_eq_some_iff.mp index).2.symm, List.getElem_range]

/-- The worker is lost to a batch that it took. -/
def Lost (config : BatcherConfig) (events : List (BatcherEvent F)) (batcher : Batcher F) : Prop :=
  batcher.worker = .lost → ∃ batch ∈ taken events, Overran config events batch

omit [Scalar F] in
theorem settle_lost {batch : List (Request F)} {result : Except Fault (List (List F))} (lost : settle batch result = .lost) :
    ∃ fault, result = .error fault ∧ ¬fault.Thrown := by
  cases result with
  | ok logits => cases lost
  | error fault =>
    rw [settle] at lost
    split at lost
    · cases lost
    next thrown => exact ⟨fault, rfl, thrown⟩

/-- No turn but one that leaves the buffers loses the worker. -/
theorem Turn.lost {next : Batcher F} {event : BatcherEvent F} (turn : Turn config batcher event next)
    (now : next.worker = .lost) : batcher.worker = .lost ∨ ∃ batch, batcher.worker = .inferring batch ∧
      ((∃ fault, packBatch config batch = .error fault) ∨ ∃ input returned, event = .inferred batch input returned ∧
        settle batch (returned >>= sliceBatch batch.length) = .lost) := by
  cases turn with
  | hear less =>
    left
    cases here : batcher.worker with
    | lost => rfl
    | _ =>
      rw [here] at now
      cases now
  | infer returned here packed => exact .inr ⟨_, here, .inr ⟨_, returned, rfl, now⟩⟩
  | overrun here packed => exact .inr ⟨_, here, .inl ⟨_, packed⟩⟩
  | take =>
    dsimp only at now
    split at now <;> cases now
  | accept => exact .inl now
  | refuse => exact .inl now
  | nobody => exact .inl now
  | stay => exact .inl now
  | stop => exact .inl now
  | _ => cases now

theorem Lost.turn (lost : Lost config events batcher) (served : Served config events batcher) {next : Batcher F}
    {event : BatcherEvent F} (turn : Turn config batcher event next) : Lost config (events ++ [event]) next := by
  intro now
  have kept : ∀ batch ∈ taken events, batch ∈ taken (events ++ [event]) := by
    intro batch member
    rw [taken, List.filterMap_append]
    exact List.mem_append_left _ member
  rcases turn.lost now with before | ⟨batch, here, cause⟩
  · obtain ⟨batch, member, overran⟩ := lost before
    refine ⟨batch, kept batch member, overran.imp_right ?_⟩
    rintro ⟨input, returned, inferred, outside⟩
    exact ⟨input, returned, List.mem_append_left _ inferred, outside⟩
  · have member := served.inferring batch here
    obtain ⟨few, sized⟩ := served.batch member
    refine ⟨batch, kept batch member, ?_⟩
    rcases cause with ⟨fault, packed⟩ | ⟨input, returned, rfl, gone⟩
    · left
      by_contra fits
      obtain ⟨input, made⟩ := packBatch_fits sized few (not_le.mp fits)
      cases packed.symm.trans made
    · refine .inr ⟨input, returned, List.mem_append_right _ List.mem_cons_self, ?_⟩
      obtain ⟨fault, failed, outside⟩ := settle_lost gone
      cases returned with
      | error other =>
        cases failed
        exact .inl ⟨fault, rfl, outside⟩
      | ok output =>
        right
        change sliceBatch batch.length output = _ at failed
        obtain ⟨_, rfl⟩ | ⟨⟨classes, shape⟩, _⟩ := sliceBatch_error failed
        · exact absurd trivial outside
        refine ⟨output, classes, rfl, shape, ?_⟩
        by_contra room
        rw [sliceBatch_rows few shape (not_lt.mp room)] at failed
        cases failed

theorem lost_after (config : BatcherConfig) (actions : List (BatcherAction F)) :
    Lost config (outputs (step config) {} actions) (after (step config) {} actions) := by
  induction actions using List.reverseRecOn with
  | nil => exact nofun
  | append_singleton actions action ih =>
    rw [Lib.Machine.outputs_concat, Lib.Machine.after_concat]
    exact ih.turn (served_after config actions) (step_turn action)

/-- Requests are batched without being lost, repeated, reordered or mixed up. -/
structure Coalesced (config : BatcherConfig) (events : List (BatcherEvent F)) (batcher : Batcher F) : Prop where
  /-- The batches cut what was accepted, and the rest is in the queue. -/
  segments : accepted events = (taken events).flatten ++ batcher.queue
  sizes : ∀ batch ∈ taken events, 1 ≤ batch.length ∧ batch.length ≤ config.limit.toNat
  promises : (accepted events).map Request.promise = List.range batcher.promises
  /-- The promises are kept in this order, each once. -/
  order : (answers events).map Prod.fst <+: (accepted events).map Request.promise
  own : ∀ promise answer, (promise, answer) ∈ answers events → OwnRow config events promise answer
  lost : batcher.worker = .lost → ∃ batch ∈ taken events, Overran config events batch
  refused : batcher.stopping = true → ∀ features, features.length = config.featureCount.toNat →
    enqueue config features batcher = .error (.runtimeError (text "Batcher is shutting down"))
  finished : batcher.worker = .returned → (answers events).map Prod.fst = (accepted events).map Request.promise
  /-- Nobody is left waiting: as long as an answer is missing somebody other than a
  client has a turn, and only so many of these turns are left. -/
  alive : batcher.worker ≠ .lost → (answers events).length < (accepted events).length →
    Enabled config batcher .notify ∨ Enabled config batcher .expire ∨ Enabled config batcher .work ∨
      ∀ returned, Enabled config batcher (.infer returned)
  ends : ∀ action, Internal action → Enabled config batcher action → rank (step config batcher action).2 < rank batcher

theorem Served.coalesced (served : Served config events batcher) (lost : Lost config events batcher) :
    Coalesced config events batcher := by
  obtain ⟨rest, cut, known⟩ := served.settled
  refine ⟨served.segments, served.bounded, served.numbered, ?_, fun _ _ => served.ownRow, lost,
    fun stopping features sized => ?_,
    fun done => ?_, served.alive, fun _ => served.falls⟩
  · rw [served.segments, List.map_append, ← cut, List.append_assoc]
    exact List.prefix_append _ _
  · rw [enqueue, if_neg (not_not.mpr sized)]
    exact if_pos stopping
  · rw [known (by rw [done]; exact nofun), done] at cut
    rw [served.segments, (served.returned done).2, List.append_nil, ← cut]
    exact (List.append_nil _).symm

/-- Whoever takes the turns, and whatever the engine returns. -/
theorem coalesces (config : BatcherConfig) (actions : List (BatcherAction F)) :
    Coalesced config (outputs (step config) {} actions) (after (step config) {} actions) ∧
      ∀ earlier later, actions = earlier ++ .stop :: later →
        accepted (outputs (step config) {} actions) = accepted (outputs (step config) ({} : Batcher F) earlier) := by
  refine ⟨(served_after config actions).coalesced (lost_after config actions), ?_⟩
  rintro earlier later rfl
  have stopping : (after (step config) {} (earlier ++ [.stop])).stopping = true := by
    rw [Lib.Machine.after_concat]
    exact stop_stopping _
  have same := (accepted_stopped (earlier ++ [.stop]) stopping later).2
  rw [List.append_assoc, List.singleton_append] at same
  rw [same, Lib.Machine.outputs_concat]
  simp [accepted, step]

/-- Two clients share a batch, and each is answered the row of its own features. -/
theorem coalesces_shared : ∃ (config : BatcherConfig) (actions : List (BatcherAction FloatBits)),
    answers (outputs (step config) {} actions) = [(0, .ok [10, 11]), (1, .ok [20, 21])] ∧
      OwnRow config (outputs (step config) {} actions) 1 (.ok [20, 21]) := by
  let config : BatcherConfig := ⟨2, 1000, 1⟩
  let output : Tensor FloatBits := ⟨[2, 2], [10, 11, 20, 21], rfl, by decide⟩
  let actions : List (BatcherAction FloatBits) :=
    [.enqueue [1], .work, .enqueue [2], .notify, .work, .infer (.ok output), .work, .work]
  have told : answers (outputs (step config) {} actions) = [(0, .ok [10, 11]), (1, .ok [20, 21])] := by decide +kernel
  refine ⟨config, actions, told, (coalesces config actions).1.own 1 _ ?_⟩
  rw [told]
  exact List.mem_cons_of_mem _ List.mem_cons_self

end Coalescing
end Batcher
end FromScratch.Inference
