import FromScratch.Inference.Evaluation

/-! The dataset file. It is read as the test set it was exported from, and a file
that is cut short is refused with the number of the sample that is missing. -/

namespace FromScratch.Inference.Cli
open Lib (Reader littleEndian ofLittleEndian)
open Lib.Reader (Reads repeated)

/-- A test set of images the evaluation can take. -/
structure Exportable (testSet : List Sample) : Prop where
  sized : ∀ sample ∈ testSet, sample.image.length = kImagePixels
  filled : 0 < testSet.length
  few : testSet.length ≤ 10000000

/-- The arrays of a test set. -/
def Dataset.ofSamples (testSet : List Sample) : Dataset where
  pixels := testSet.flatMap Sample.image
  labels := testSet.map Sample.label
  count := testSet.length

def Sample.record (sample : Sample) : List UInt8 := sample.image ++ [sample.label]

def Dataset.push (state : Nat × Dataset) (sample : Sample) : Nat × Dataset :=
  (state.1 + 1, { state.2 with
    pixels := state.2.pixels ++ sample.image, labels := state.2.labels ++ [sample.label] })

section Records

theorem record_length {sample : Sample} (sized : sample.image.length = kImagePixels) :
    sample.record.length = kImagePixels + 1 := by
  rw [Sample.record, List.length_append, sized, List.length_singleton]

theorem records_length {testSet : List Sample} (sized : ∀ sample ∈ testSet, sample.image.length = kImagePixels) :
    (testSet.flatMap Sample.record).length = testSet.length * (kImagePixels + 1) := by
  induction testSet with
  | nil => simp
  | cons sample testSet ih =>
    obtain ⟨first, others⟩ := List.forall_mem_cons.mp sized
    rw [List.flatMap_cons, List.length_append, record_length first, ih others, List.length_cons, Nat.succ_mul, Nat.add_comm]

/-- The bytes of a record are a sample. -/
theorem exists_sample {record : List UInt8} (length : record.length = kImagePixels + 1) :
    ∃ sample : Sample, sample.record = record ∧ sample.image.length = kImagePixels := by
  obtain ⟨image, label, rfl⟩ : ∃ image label, record = image ++ [label] := by
    refine ⟨record.dropLast, record.getLast (List.ne_nil_of_length_pos (by omega)), ?_⟩
    exact (List.dropLast_append_getLast _).symm
  refine ⟨⟨image, label⟩, rfl, ?_⟩
  rw [List.length_append, List.length_singleton] at length
  exact Nat.succ.inj length

theorem reads_sample {sample : Sample} (sized : sample.image.length = kImagePixels) (state : Nat × Dataset) :
    Reads (readSample state) sample.record (Dataset.push state sample) := by
  refine (Reads.take (record_length sized) _).map ?_
  rw [Sample.record, List.take_left' sized, List.drop_left' sized]
  exact Reads.pure _

/-- The loop stops at the first record that is not whole. -/
theorem samples_run (count : Nat) (state : Nat × Dataset) (bytes : List UInt8) :
    (count * (kImagePixels + 1) ≤ bytes.length ∧ ∃ (testSet : List Sample) (rest : List UInt8), testSet.length = count ∧
        (∀ sample ∈ testSet, sample.image.length = kImagePixels) ∧ bytes = testSet.flatMap Sample.record ++ rest ∧
        (repeated readSample count state).run bytes = .ok (testSet.foldl Dataset.push state, rest)) ∨
      (bytes.length < count * (kImagePixels + 1) ∧
        (repeated readSample count state).run bytes = .error (truncated (state.1 + bytes.length / (kImagePixels + 1)))) := by
  induction count generalizing state bytes with
  | zero => exact Or.inl ⟨by omega, [], bytes, rfl, nofun, rfl, rfl⟩
  | succ count ih =>
    by_cases whole : kImagePixels + 1 ≤ bytes.length
    · have length : (bytes.take (kImagePixels + 1)).length = kImagePixels + 1 := List.length_take_of_le whole
      obtain ⟨sample, record, sized⟩ := exists_sample length
      have split : bytes = sample.record ++ bytes.drop (kImagePixels + 1) := by rw [record, List.take_append_drop]
      have first : (readSample state).run bytes = .ok (Dataset.push state sample, bytes.drop (kImagePixels + 1)) := by
        rw [split, List.drop_left' (record_length sized)]
        exact reads_sample sized state _
      have next : (repeated readSample (count + 1) state).run bytes =
          (repeated readSample count (Dataset.push state sample)).run (bytes.drop (kImagePixels + 1)) :=
        Reader.run_bind_of_ok first
      rw [next]
      rcases ih (Dataset.push state sample) (bytes.drop (kImagePixels + 1)) with ⟨enough, others⟩ | ⟨early, failed⟩
      · obtain ⟨testSet, rest, counted, each, bytes_eq, ran⟩ := others
        rw [List.length_drop] at enough
        refine Or.inl ⟨by rw [Nat.succ_mul]; omega, sample :: testSet, rest, by rw [List.length_cons, counted],
          List.forall_mem_cons.mpr ⟨sized, each⟩, ?_, ran⟩
        rw [List.flatMap_cons, List.append_assoc, ← bytes_eq]
        exact split
      · rw [List.length_drop] at early failed
        refine Or.inr ⟨by rw [Nat.succ_mul]; omega, failed.trans ?_⟩
        have position : (state.1 + 1) + (bytes.length - (kImagePixels + 1)) / (kImagePixels + 1) =
            state.1 + bytes.length / (kImagePixels + 1) := by
          rw [Nat.add_assoc, Nat.add_comm 1, ← Nat.add_div_right _ (Nat.succ_pos _), Nat.sub_add_cancel whole]
        exact congrArg (fun i => Except.error (truncated i)) position
    · refine Or.inr ⟨by rw [Nat.succ_mul]; omega, ?_⟩
      have nought : bytes.length / (kImagePixels + 1) = 0 := Nat.div_eq_of_lt (by omega)
      have short : (readSample state).run bytes = .error (truncated state.1) := by
        change (Reader.take _ _ bytes >>= fun found => _) = _
        rw [Reader.take, if_pos (by omega)]
        rfl
      change ((readSample state).run bytes >>= fun found => _) = _
      rw [nought, short]
      rfl

theorem push_all (testSet : List Sample) (state : Nat × Dataset) : testSet.foldl Dataset.push state =
    (state.1 + testSet.length, ⟨state.2.pixels ++ testSet.flatMap Sample.image, state.2.labels ++ testSet.map Sample.label,
      state.2.count⟩) := by
  induction testSet generalizing state with
  | nil => simp
  | cons sample testSet ih =>
    rw [List.foldl_cons, ih]
    simp [Dataset.push, Nat.add_assoc, Nat.add_comm 1]

end Records

section File
variable {path : Text}

/-- The file up to the first record. -/
theorem loadDataset_counted {bytes : List UInt8} (long : 4 ≤ bytes.length) (positive : 0 < ofLittleEndian (bytes.take 4))
    (few : ofLittleEndian (bytes.take 4) ≤ 10000000) :
    loadDataset path (some bytes) =
      (repeated readSample (ofLittleEndian (bytes.take 4)) (0, { count := ofLittleEndian (bytes.take 4) })).run
        (bytes.drop 4) >>= fun found => .ok found.1.2 := by
  have head : (Reader.take 4 invalidCount : Reader Fault (List UInt8)).run bytes = .ok (bytes.take 4, bytes.drop 4) :=
    if_neg (by omega)
  have counted : ¬(ofLittleEndian (bytes.take 4) = 0 ∨ ofLittleEndian (bytes.take 4) > 10000000) := by omega
  rw [loadDataset, readDataset, Reader.run_bind_of_ok head, if_neg counted]
  change (((repeated readSample _ _).run (bytes.drop 4) >>= fun found => _) >>= fun found => _) = _
  cases (repeated readSample _ _).run (bytes.drop 4) <;> rfl

theorem loadDataset_uncounted {bytes : List UInt8} (invalid : bytes.length < 4 ∨ ofLittleEndian (bytes.take 4) = 0 ∨
    ofLittleEndian (bytes.take 4) > 10000000) : loadDataset path (some bytes) = .error invalidCount := by
  by_cases short : bytes.length < 4
  · have head : (Reader.take 4 invalidCount : Reader Fault (List UInt8)).run bytes = .error invalidCount := if_pos short
    rw [loadDataset, readDataset, Reader.run_bind, head]
    rfl
  · have head : (Reader.take 4 invalidCount : Reader Fault (List UInt8)).run bytes = .ok (bytes.take 4, bytes.drop 4) :=
      if_neg short
    rw [loadDataset, readDataset, Reader.run_bind_of_ok head, if_pos (invalid.resolve_left short)]
    rfl

theorem loaded_eq (testSet : List Sample) :
    (testSet.foldl Dataset.push (0, { count := testSet.length })).2 = .ofSamples testSet := by
  rw [push_all]
  rfl

/-- The count of an exported test set, and its records. -/
theorem Exportable.counted {testSet : List Sample} (fit : Exportable testSet) (rest : List UInt8) :
    (exportTestSet testSet ++ rest).take 4 = littleEndian 4 testSet.length ∧
      (exportTestSet testSet ++ rest).drop 4 = testSet.flatMap Sample.record ++ rest ∧
      ofLittleEndian (littleEndian 4 testSet.length) = testSet.length := by
  have few := fit.few
  have bytes : exportTestSet testSet ++ rest = littleEndian 4 testSet.length ++ (testSet.flatMap Sample.record ++ rest) :=
    List.append_assoc ..
  rw [bytes]
  exact ⟨List.take_left' (Lib.littleEndian_length 4 _), List.drop_left' (Lib.littleEndian_length 4 _),
    Lib.ofLittleEndian_of_lt (by omega)⟩

theorem Exportable.long {testSet : List Sample} (rest : List UInt8) : 4 ≤ (exportTestSet testSet ++ rest).length := by
  rw [exportTestSet, List.append_assoc, List.length_append, Lib.littleEndian_length]
  exact Nat.le_add_right _ _

theorem Exportable.loads {testSet : List Sample} (fit : Exportable testSet) (rest : List UInt8) :
    loadDataset path (some (exportTestSet testSet ++ rest)) = .ok (.ofSamples testSet) := by
  obtain ⟨count, records, same⟩ := fit.counted rest
  have filled := fit.filled
  have few := fit.few
  have ran : (repeated readSample testSet.length (0, { count := testSet.length })).run
      (testSet.flatMap Sample.record ++ rest) = _ :=
    Reads.repeated (fun sample member state => reads_sample (fit.sized sample member) state) _ rest
  rw [loadDataset_counted (Exportable.long rest) (by rw [count, same]; exact filled) (by rw [count, same]; exact few), count,
    same, records, ran]
  exact congrArg Except.ok (loaded_eq testSet)

/-- A file that is accepted begins with an exported test set. -/
theorem exists_exported {bytes : List UInt8} {dataset : Dataset} (accepted : loadDataset path (some bytes) = .ok dataset) :
    ∃ testSet rest, Exportable testSet ∧ bytes = exportTestSet testSet ++ rest := by
  by_cases invalid : bytes.length < 4 ∨ ofLittleEndian (bytes.take 4) = 0 ∨ ofLittleEndian (bytes.take 4) > 10000000
  · rw [loadDataset_uncounted invalid] at accepted
    cases accepted
  · rw [loadDataset_counted (by omega) (by omega) (by omega)] at accepted
    obtain ⟨_, ran, _⟩ := Lib.bind_ok accepted
    rcases samples_run (ofLittleEndian (bytes.take 4)) (0, { count := ofLittleEndian (bytes.take 4) }) (bytes.drop 4) with
      ⟨_, testSet, rest, count, sized, records, _⟩ | ⟨_, failed⟩
    · refine ⟨testSet, rest, ⟨sized, by omega, by omega⟩, ?_⟩
      have length : (bytes.take 4).length = 4 := List.length_take_of_le (by omega)
      have written := Lib.littleEndian_ofLittleEndian (bytes.take 4)
      rw [length, ← count] at written
      calc bytes = bytes.take 4 ++ bytes.drop 4 := (List.take_append_drop 4 bytes).symm
        _ = littleEndian 4 testSet.length ++ (testSet.flatMap Sample.record ++ rest) := by rw [written, records]
        _ = exportTestSet testSet ++ rest := (List.append_assoc ..).symm
    · rw [failed] at ran
      cases ran

/-- What is loaded is a test set that was exported: a file is accepted if it begins
with one. Cut short, it is refused at the first sample that is not whole. -/
theorem loadDataset_export (path : Text) (bytes : List UInt8) :
    (∀ dataset, loadDataset path (some bytes) = .ok dataset ↔
      ∃ testSet rest, Exportable testSet ∧ bytes = exportTestSet testSet ++ rest ∧ dataset = .ofSamples testSet) ∧
    ∀ testSet, Exportable testSet → bytes <+: exportTestSet testSet → bytes ≠ exportTestSet testSet →
      loadDataset path (some bytes) =
        .error (if bytes.length < 4 then invalidCount else truncated ((bytes.length - 4) / (kImagePixels + 1))) := by
  refine ⟨fun dataset => ⟨fun accepted => ?_, ?_⟩, fun testSet fit cut part => ?_⟩
  · obtain ⟨testSet, rest, fit, rfl⟩ := exists_exported accepted
    rw [fit.loads] at accepted
    exact ⟨testSet, rest, fit, rfl, (Except.ok.inj accepted).symm⟩
  · rintro ⟨testSet, rest, fit, rfl, rfl⟩
    exact fit.loads rest
  · by_cases short : bytes.length < 4
    · rw [if_pos short]
      exact loadDataset_uncounted (Or.inl short)
    · obtain ⟨missing, whole⟩ := cut
      obtain ⟨count, records, same⟩ := fit.counted []
      rw [List.append_nil, ← whole] at count records
      rw [List.take_append_of_le_length (by omega)] at count
      rw [List.drop_append_of_le_length (by omega), List.append_nil] at records
      have filled := fit.filled
      have few := fit.few
      have fewer : (bytes.drop 4).length < testSet.length * (kImagePixels + 1) := by
        rw [← records_length fit.sized, ← records, List.length_append]
        refine Nat.lt_add_of_pos_right (List.length_pos_iff.mpr fun complete => part ?_)
        rw [← whole, complete, List.append_nil]
      rw [if_neg short, loadDataset_counted (by omega) (by rw [count, same]; exact filled) (by rw [count, same]; exact few),
        count, same]
      rcases samples_run testSet.length (0, { count := testSet.length }) (bytes.drop 4) with ⟨enough, _⟩ | ⟨_, failed⟩
      · exact absurd enough (Nat.not_le_of_lt fewer)
      · rw [failed, List.length_drop, Nat.zero_add]
        rfl

end File
end FromScratch.Inference.Cli
