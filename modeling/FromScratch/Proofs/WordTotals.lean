import FromScratch.Proofs.CombinerEquivalence
import FromScratch.Proofs.WordSplitting

/-! The output files of the word count: each word of a partition once, in order,
with the number of times it was read, whether or not the mapper has added up first. -/

namespace FromScratch.Proofs.WordTotals
open FromScratch.MapReduce WordCount Lib Codec Mapper MapPlan MapOutput MergeOrder ReduceAttempt ReduceOutput SpillOrder
open JobRuns PipelineCorrectness CombinerEquivalence WordSplitting

section Numbers

theorem digits_unsigned {digits : List UInt8} (only : ∀ digit ∈ digits, Decimal.IsDigit digit) (sign : UInt8)
    (other : ¬ Decimal.IsDigit sign) : digits.head? ≠ some sign :=
  fun first => other (only sign (List.mem_of_mem_head? first))

/-- `Atoi` reads what `Itoa` writes. -/
theorem atoi_itoa (n : Int64) : atoi (itoa n) = some n := by
  have low := n.le_toInt
  have high := n.toInt_lt
  have digits := Decimal.numeral_digits n.toInt.natAbs
  have all : (Decimal.numeral n.toInt.natAbs).all (fun digit => Decimal.IsDigit digit) = true := by
    simpa [List.all_eq_true] using digits
  have filled := Decimal.numeral_ne_nil n.toInt.natAbs
  unfold itoa
  split
  next negative =>
    have below : n.toInt < 0 := Int64.lt_iff_toInt_lt.mp negative
    have same : -(n.toInt.natAbs : Int) = n.toInt := by omega
    simp only [atoi, List.head?_cons, List.tail_cons, true_or, if_true, Decimal.value_numeral, same]
    rw [if_pos ⟨⟨filled, all⟩, low, high⟩, Int64.ofInt_toInt]
  next positive =>
    have above : 0 ≤ n.toInt := not_lt.mp fun below => positive (Int64.lt_iff_toInt_lt.mpr below)
    have same : (n.toInt.natAbs : Int) = n.toInt := by omega
    have minus := digits_unsigned digits 45 (by decide)
    have plus := digits_unsigned digits 43 (by decide)
    simp only [atoi, minus, plus, or_self, if_false, Decimal.value_numeral, same]
    rw [if_pos ⟨⟨filled, all⟩, low, high⟩, Int64.ofInt_toInt]

theorem foldl_add (start : Int64) (numbers : List Int64) :
    numbers.foldl (· + ·) start = start + numbers.foldl (· + ·) 0 := by
  induction numbers generalizing start with
  | nil => rw [List.foldl_nil, List.foldl_nil, Int64.add_zero]
  | cons n numbers ih =>
    rw [List.foldl_cons, List.foldl_cons, ih (start + n), ih (0 + n), Int64.zero_add, Int64.add_assoc]

theorem total_append (values others : List GoString) : total (values ++ others) = total values + total others := by
  rw [total, List.filterMap_append, List.foldl_append, foldl_add]
  rfl

theorem total_perm {values others : List GoString} (perm : values.Perm others) : total values = total others := by
  have commutes : RightCommutative fun a b : Int64 => a + b :=
    ⟨fun a b c => by rw [Int64.add_assoc, Int64.add_comm b, ← Int64.add_assoc]⟩
  exact (perm.filterMap atoi).foldl_eq 0

theorem total_itoa (n : Int64) : total [itoa n] = n := by
  rw [total, List.filterMap_cons_some (atoi_itoa n)]
  exact Int64.zero_add n

theorem total_ones (times : Nat) : total (List.replicate times [49]) = Int64.ofNat times := by
  induction times with
  | zero => rfl
  | succ times ih =>
    rw [List.replicate_succ', total_append, ih, Int64.ofNat_add]
    rfl

/-- The adder as a combiner is not noticed by the adder as a reducer. -/
theorem adder_combines : Combines reduce combine := by
  refine ⟨fun _ _ _ => List.cons_ne_nil _ _, fun _ _ _ perm => ?_, fun key groups filled => ?_⟩
  · rw [reduce, reduce, total_perm perm]
  · clear filled
    have sums : total (groups.flatMap (combine key)) = total groups.flatten := by
      induction groups with
      | nil => rfl
      | cons values groups ih =>
        rw [List.flatMap_cons, List.flatten_cons, total_append, total_append, combine, total_itoa, ih]
    rw [reduce, reduce, sums]

theorem itoa_ofNat {count : Nat} (small : count < 2 ^ 63) : itoa (Int64.ofNat count) = Decimal.numeral count := by
  have exact' : (Int64.ofNat count).toInt = count := Int64.toInt_ofNat_of_lt small
  have positive : ¬ Int64.ofNat count < 0 := by
    rw [Int64.lt_iff_toInt_lt, exact']
    exact not_lt.mpr (Int.natCast_nonneg count)
  rw [itoa, if_neg positive, exact', Int.natAbs_natCast]

end Numbers

section Text

theorem single : ∀ code < 128, String.utf8EncodeChar (Char.ofNat code) = [UInt8.ofNat code] := by decide +kernel

theorem ascii_valid {s : GoString} (ascii : ∀ byte ∈ s, byte.toNat < 128) : GoString.ValidUtf8 s := by
  induction s with
  | nil => exact ⟨[], rfl⟩
  | cons byte s ih =>
    obtain ⟨cs, rfl⟩ := ih fun byte later => ascii byte (List.mem_cons_of_mem _ later)
    have small := ascii byte List.mem_cons_self
    have encoded : String.utf8EncodeChar (Char.ofNat byte.toNat) = [byte] := by
      rw [single byte.toNat small, UInt8.ofNat_toNat]
    exact ⟨Char.ofNat byte.toNat :: cs, by rw [GoString.writeRunes, GoString.writeRunes, List.flatMap_cons, encoded]; rfl⟩

theorem plain_valid {word : GoString} (plain : Plain word) : GoString.ValidUtf8 word :=
  ascii_valid fun byte member => (plain.letters byte member).2.trans_lt (by decide)

/-- The bytes of a number. -/
theorem itoa_bytes (n : Int64) : ∀ byte ∈ itoa n, byte = 45 ∨ Decimal.IsDigit byte := by
  unfold itoa
  split
  · exact List.forall_mem_cons.mpr ⟨Or.inl rfl, fun byte member => Or.inr (Decimal.numeral_digits _ byte member)⟩
  · exact fun byte member => Or.inr (Decimal.numeral_digits _ byte member)

theorem itoa_ascii (n : Int64) : ∀ byte ∈ itoa n, byte.toNat < 128 := by
  intro byte member
  rcases itoa_bytes n byte member with rfl | digit
  · decide
  · exact digit.2.trans_lt (by decide)

theorem itoa_length (n : Int64) : (itoa n).length ≤ 20 := by
  have low := n.le_toInt
  have high := n.toInt_lt
  have digits : (Decimal.numeral n.toInt.natAbs).length ≤ 19 := Decimal.numeral_length (by omega) (by decide)
  unfold itoa
  split
  · rw [List.length_cons]
    omega
  · omega

/-- Neither a word nor a number needs an escape. -/
theorem escape_word {word : GoString} (plain : Plain word) : Record.escape word = word := by
  refine if_neg fun special => ?_
  obtain ⟨byte, member, found⟩ := List.any_eq_true.mp special
  have letter := plain.letters byte member
  simp only [Record.special, Bool.or_eq_true, beq_iff_eq] at found
  rcases found with ((same | same) | same) | same <;> exact letter.ne (by decide) same

theorem escape_itoa (n : Int64) : Record.escape (itoa n) = itoa n := by
  refine if_neg fun special => ?_
  obtain ⟨byte, member, found⟩ := List.any_eq_true.mp special
  simp only [Record.special, Bool.or_eq_true, beq_iff_eq] at found
  rcases itoa_bytes n byte member with rfl | digit
  · exact absurd found (by decide)
  · rcases found with ((same | same) | same) | same <;> exact absurd (same ▸ digit) (by decide)

theorem one_itoa : ([49] : GoString) = itoa 1 := by decide +kernel

/-- A record of a word and a number can be stored and read back. -/
theorem count_legible {word : GoString} (plain : Plain word) (n : Int64) :
    GoString.ValidUtf8 word ∧ GoString.ValidUtf8 (itoa n) ∧ Short ⟨word, itoa n⟩ := by
  refine ⟨plain_valid plain, ascii_valid (itoa_ascii n), ?_⟩
  have few := plain.short
  have digits := itoa_length n
  rw [Short, Record.encode, escape_word plain, escape_itoa, List.length_append, List.length_cons, List.length_append]
  simp only [List.length_singleton, Scanner.maxTokenSize]
  omega

end Text

section Groups
variable {reducer : Reducer} {records : List Record}

theorem mem_groups (records : List Record) (key : GoString) :
    key ∈ (groups records).map Prod.fst ↔ valuesOf key records ≠ [] := by
  rw [groups_keys, valuesOf, ne_eq, List.map_eq_nil_iff, List.filter_eq_nil_iff]
  simp

/-- Records in order are answered key by key. -/
theorem answers_keys (ordered : Ordered records) : answers reducer (groups records) =
    ((groups records).map Prod.fst).flatMap fun key => (reducer key (valuesOf key records)).map fun value =>
    ⟨key, value⟩ := by
  rw [answers, List.flatMap_map]
  refine List.flatMap_congr fun call member => ?_
  rw [answer, valuesOf, groups_values ordered member]

end Groups

section Job
variable {job : Job} {contents : GoString → Option GoString} {files words : List GoString}

/-- The word count, with its combiner or without. -/
structure Counts (job : Job) (contents : GoString → Option GoString) (files words : List GoString) : Prop where
  reducer : job.reducer = reduce
  combiner : job.combiner = none ∨ job.combiner = some combine
  dealt : job.groups.flatten.Perm files
  emitted : emitted job.mapper contents files = words.map one
  plain : ∀ word ∈ words, Plain word

variable (task : Counts job contents files words)
include task

theorem Counts.batched {m : Nat} (inside : m < job.groups.length) {batch : List Record}
    (listed : batch ∈ batches (mapPlan job m) contents) : ∀ r ∈ batch, r.key ∈ words ∧ r.value = [49] := by
  intro r member
  have all := List.mem_flatten_of_mem listed member
  rw [batches_flatten, emissions_flatten, mapPlan, effective_mapper, effective_inputFiles] at all
  obtain ⟨path, from', emits⟩ := List.mem_flatMap.mp all
  have group : job.groups.getD m [] ∈ job.groups := by
    rw [List.getD_eq_getElem _ _ inside]
    exact List.getElem_mem inside
  have path_listed : path ∈ files := task.dealt.subset (List.mem_flatten_of_mem group from')
  have whole : r ∈ MapOutput.emitted job.mapper contents files := List.mem_flatMap.mpr ⟨path, path_listed, emits⟩
  rw [task.emitted] at whole
  obtain ⟨word, read, rfl⟩ := List.mem_map.mp whole
  exact ⟨read, rfl⟩

/-- Whatever a map task writes is a word that was read, and a number. -/
theorem Counts.written : Written job contents := by
  intro m inside p below r member
  obtain ⟨batch, listed, output⟩ := List.mem_flatMap.mp member
  have value : r.value ∈ valuesOf r.key (outputOf (mapPlan job m) batch p) :=
    List.mem_map_of_mem (List.mem_filter.mpr ⟨output, beq_self_eq_true r.key⟩)
  have combiner : (mapPlan job m).combiner = job.combiner := effective_combiner _
  rw [outputOf_values, combiner] at value
  split at value
  next => 
    have origin {other : GoString} (found : other ∈ valuesOf r.key (sortBuffer batch)) : r.key ∈ words ∧ other = [49] := by
      obtain ⟨source, chosen, rfl⟩ := List.mem_map.mp found
      obtain ⟨sorted, same⟩ := List.mem_filter.mp chosen
      have read := task.batched inside listed source ((sortBuffer_perm batch).subset sorted)
      rwa [beq_iff_eq.mp same] at read
    have number : r.key ∈ words ∧ ∃ n, r.value = itoa n := by
      rcases task.combiner with plain | adds
      · rw [plain] at value
        obtain ⟨read, one⟩ := origin value
        exact ⟨read, 1, one.trans one_itoa⟩
      · rw [adds, combinedValues] at value
        split at value
        next => cases value
        next nonempty =>
          obtain ⟨first, found⟩ := List.exists_mem_of_ne_nil _ nonempty
          exact ⟨(origin found).1, _, List.mem_singleton.mp value⟩
    obtain ⟨read, n, same⟩ := number
    have legible := count_legible (task.plain r.key read) n
    rwa [← same] at legible
  next => cases value

/-- In all batches together a word has a mark for every time it was read. -/
theorem Counts.marks (key : GoString) : (shares job contents key).flatten.Perm (List.replicate (words.count key) [49]) := by
  have each (m : Nat) : (batches (mapPlan job m) contents).flatten =
      MapOutput.emitted job.mapper contents (job.groups.getD m []) := by
    rw [batches_flatten, emissions_flatten, mapPlan, effective_mapper, effective_inputFiles]
    rfl
  have grouped : (List.range job.groups.length).flatMap
      (fun m => MapOutput.emitted job.mapper contents (job.groups.getD m [])) =
      MapOutput.emitted job.mapper contents job.groups.flatten := by
    have listed := range_groups job.groups
    simp only [MapOutput.emitted]
    conv_rhs => rw [← listed]
    rw [← List.flatMap_def, List.flatMap_assoc]
  have whole : (((List.range job.groups.length).flatMap fun m => batches (mapPlan job m) contents).flatten).Perm
      (words.map one) := by
    rw [List.flatten_eq_flatMap, List.flatMap_assoc]
    simp only [← List.flatten_eq_flatMap, each, grouped, ← task.emitted]
    exact task.dealt.flatMap_right _
  have sorted : (shares job contents key).flatten.Perm
      (valuesOf key ((List.range job.groups.length).flatMap fun m => batches (mapPlan job m) contents).flatten) := by
    rw [shares, ← List.flatMap_def, List.flatten_eq_flatMap, valuesOf_flatMap]
    exact List.Perm.flatMap_left _ fun batch _ => valuesOf_perm (sortBuffer_perm batch) key
  have read : valuesOf key (words.map one) = List.replicate (words.count key) [49] := by
    rw [valuesOf, List.filter_map, List.map_map]
    have same : words.filter ((fun r => r.key == key) ∘ one) = List.replicate (words.count key) key := List.filter_beq ..
    rw [same, List.map_replicate]
    rfl
  rw [← read]
  exact sorted.trans (valuesOf_perm whole key)

/-- The combiner changes neither the sum of a word's marks nor whether it has any. -/
theorem Counts.answered (key : GoString) :
    reduce key ((shares job contents key).flatMap (combinedValues job.combiner key)) =
      [itoa (Int64.ofNat (words.count key))] ∧
    ((shares job contents key).flatMap (combinedValues job.combiner key) = [] ↔ key ∉ words) := by
  have marks := task.marks key
  have counted : reduce key (shares job contents key).flatten = [itoa (Int64.ofNat (words.count key))] := by
    rw [reduce, total_perm marks, total_ones]
  have read : (shares job contents key).flatten = [] ↔ key ∉ words := by
    rw [← List.perm_nil, marks.congr_left, List.perm_nil, List.replicate_eq_nil_iff, List.count_eq_zero]
  rcases task.combiner with plain | adds
  · have identity : combinedValues job.combiner key = id := by
      rw [plain]
      rfl
    rw [identity, List.flatMap_id]
    exact ⟨counted, read⟩
  · rw [adds, adder_combines.shares, adder_combines.empty_iff]
    exact ⟨counted, read⟩

/-- A reduce task counts the words of its partition. -/
theorem Counts.reduced {r : Nat} (below : r < job.numReducers) : ∃ keys : List GoString, keys.Nodup ∧
    (∀ key, key ∈ keys ↔ key ∈ words ∧ Storage.partition key job.numReducers = r) ∧
    reduceContent (job.reduceOptions r) (partOf job contents r) =
      .ok (Record.encodeAll (keys.map fun key => ⟨key, itoa (Int64.ofNat (words.count key))⟩)) := by
  obtain ⟨clean, ordered, _⟩ := task.written.merges below
  have values (key : GoString) := task.written.values below key
  have reducer : (job.reduceOptions r).reducer = reduce := task.reducer
  unfold reduceContent
  rw [reducer]
  generalize merged (job.reduceOptions r) (partOf job contents r) = pair at clean ordered values
  obtain ⟨found, err⟩ := pair
  cases clean
  have mem (key : GoString) : key ∈ (groups found).map Prod.fst ↔ key ∈ words ∧ Storage.partition key job.numReducers =
    r := by
    rw [mem_groups, ne_eq, ← List.perm_nil, (values key).congr_left, List.perm_nil]
    split
    next here => rw [(task.answered key).2, not_not, and_iff_left here]
    next elsewhere => simp [elsewhere]
  refine ⟨(groups found).map Prod.fst, ?_, mem, ?_⟩
  · exact List.Pairwise.imp ne_of_lt (List.pairwise_map.mpr (groups_ascending ordered))
  · have each : answers reduce (groups found) =
        ((groups found).map Prod.fst).map fun key => ⟨key, itoa (Int64.ofNat (words.count key))⟩ := by
      have singly (keys : List GoString) (f : GoString → Record) : keys.map f = keys.flatMap fun key => [f key] :=
        List.map_eq_flatMap ..
      rw [answers_keys ordered, singly ((groups found).map Prod.fst)]
      refine List.flatMap_congr fun key listed => ?_
      have sum : reduce key (valuesOf key found) = [itoa (Int64.ofNat (words.count key))] := by
        rw [adder_combines.unordered key (values key), if_pos ((mem key).mp listed).2, (task.answered key).1]
      rw [sum]
      rfl
    exact congrArg (fun records => Except.ok (Record.encodeAll records)) each

end Job
end FromScratch.Proofs.WordTotals
