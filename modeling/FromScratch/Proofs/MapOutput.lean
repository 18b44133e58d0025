import Mathlib.Data.List.Induction
import FromScratch.Proofs.MapPlan
import FromScratch.Proofs.MergeOrder

/-! What the partition files of a map task hold: every record its lines emit,
once, wherever its buffer overflowed. -/

namespace FromScratch.Proofs.MapOutput
open FromScratch.MapReduce Mapper MapPlan Codec MergeOrder

section Buffers

theorem recordLE_total (a b : Record) : recordLE a b = true ∨ recordLE b a = true := by
  unfold recordLE
  by_cases same : a.key = b.key
  · simp [same, le_total a.value b.value]
  · simp [same, Ne.symm same]

theorem recordLE_key {a b : Record} (lower : recordLE a b = true) : a.key ≤ b.key := by
  unfold recordLE at lower
  split at lower
  next => exact le_of_lt (of_decide_eq_true lower)
  next same => exact le_of_eq (not_not.mp same)

theorem recordLE_value {a b : Record} (lower : recordLE a b = true) (same : a.key = b.key) : a.value ≤ b.value := by
  unfold recordLE at lower
  rw [if_neg (not_not.mpr same)] at lower
  exact of_decide_eq_true lower

theorem recordLE_trans {a b c : Record} (first : recordLE a b = true) (second : recordLE b c = true) :
    recordLE a c = true := by
  have key := (recordLE_key first).trans (recordLE_key second)
  unfold recordLE
  split
  next different => exact decide_eq_true (lt_of_le_of_ne key different)
  next same =>
    have middle : a.key = b.key := by
      refine le_antisymm (recordLE_key first) ?_
      rw [not_not.mp same]
      exact recordLE_key second
    have last : b.key = c.key := middle.symm.trans (not_not.mp same)
    exact decide_eq_true ((recordLE_value first middle).trans (recordLE_value second last))

theorem sortBuffer_perm (buffer : List Record) : (sortBuffer buffer).Perm buffer := List.perm_insertionSort ..

theorem sortBuffer_sorted (buffer : List Record) : (sortBuffer buffer).Pairwise fun a b => recordLE a b = true := by
  have total : Std.Total fun a b => recordLE a b = true := ⟨recordLE_total⟩
  have trans : IsTrans Record fun a b => recordLE a b = true := ⟨fun _ _ _ => recordLE_trans⟩
  exact List.pairwise_insertionSort _ buffer

theorem sortBuffer_ordered (buffer : List Record) : Ordered (sortBuffer buffer) :=
  (sortBuffer_sorted buffer).imp recordLE_key

end Buffers

section Cuts

theorem absorb_all (limit : Int) (c : Cut) (emitted : List Record) :
    (absorb limit c emitted).runs.flatten ++ (absorb limit c emitted).buffer = c.runs.flatten ++ c.buffer ++ emitted := by
  unfold absorb
  split <;> simp

/-- Cutting loses nothing. -/
theorem cut_all (limit : Int) (emissions : List (List Record)) :
    (cut limit emissions).runs.flatten ++ (cut limit emissions).buffer = emissions.flatten := by
  induction emissions using List.reverseRec with
  | nil => rfl
  | append_singleton emissions emitted ih =>
    rw [cut_line, absorb_all, ih]
    simp

variable {opts : Options} {contents : GoString → Option GoString}

theorem runs_flatten (spilled : runs opts contents ≠ []) :
    (runs opts contents).flatten = (emissions opts contents).flatten := by
  have all := cut_all opts.spillBytes (emissions opts contents)
  rw [← all]
  unfold runs at spilled ⊢
  simp only at spilled ⊢
  split
  next nothing =>
    rw [if_pos nothing] at spilled
    have empty := nothing.resolve_left spilled
    unfold planned at empty ⊢
    rw [empty, List.append_nil]
  next => simp [planned]

theorem buffer_flatten (unspilled : runs opts contents = []) :
    (planned opts contents).buffer = (emissions opts contents).flatten := by
  have all := cut_all opts.spillBytes (emissions opts contents)
  rw [← all]
  have empty : (planned opts contents).runs = [] := List.prefix_nil.mp (unspilled ▸ runs_initial opts contents)
  unfold planned at empty ⊢
  rw [empty]
  rfl

/-- The records a mapper emits for the lines of a file. -/
def emittedFrom (mapper : Mapper) (contents : GoString → Option GoString) (path : GoString) : List Record :=
  (Scanner.scan { bytes := (contents path).getD [] }).1.flatMap (mapper path)

def emitted (mapper : Mapper) (contents : GoString → Option GoString) (files : List GoString) : List Record :=
  files.flatMap (emittedFrom mapper contents)

theorem emissions_flatten (opts : Options) (contents : GoString → Option GoString) :
    (emissions opts contents).flatten = emitted opts.mapper contents opts.inputFiles := by
  unfold emissions emitted
  induction opts.inputFiles with
  | nil => rfl
  | cons path files ih =>
    rw [List.flatMap_cons, List.flatten_append, ih, List.flatMap_cons]
    rfl

end Cuts

section Output
variable {opts : Options} {contents : GoString → Option GoString}

/-- The records routed to partition `p`. -/
def routed (opts : Options) (records : List Record) (p : Nat) : List Record :=
  records.filter fun r => Storage.partition r.key opts.numReducers == p

theorem outputOf_routed (plain : opts.combiner = none) (buffer : List Record) (p : Nat) :
    (outputOf opts buffer p).Perm (routed opts buffer p) := by
  unfold outputOf applyCombiner partitionBuffer routed
  rw [plain]
  exact (sortBuffer_perm buffer).filter _

theorem outputOf_ordered (plain : opts.combiner = none) (buffer : List Record) (p : Nat) :
    Ordered (outputOf opts buffer p) := by
  unfold outputOf applyCombiner partitionBuffer
  rw [plain]
  exact (sortBuffer_ordered buffer).filter _

theorem outputs_routed (plain : opts.combiner = none) (buffers : List (List Record)) (p : Nat) :
    (buffers.map fun run => outputOf opts run p).flatten.Perm (routed opts buffers.flatten p) := by
  induction buffers with
  | nil => exact List.Perm.refl _
  | cons buffer buffers ih =>
    simp only [List.map_cons, List.flatten_cons, routed, List.filter_append]
    exact (outputOf_routed plain buffer p).append ih

/-- The input lines and the records written are short enough to be read back. -/
structure WithinLimits (opts : Options) (contents : GoString → Option GoString) : Prop where
  readable : ∀ path ∈ opts.inputFiles, Readable contents path
  short : ∀ run ∈ runs opts contents, ∀ p < opts.numReducers, ∀ r ∈ outputOf opts run p, Short r

/-- The merge of the runs of a partition succeeds unless a line is too long. -/
theorem merge_outputs (opts : Options) (buffers : List (List Record)) (p : Nat) :
    (∃ out, mergeContents (buffers.map fun run => Record.encodeAll (outputOf opts run p)) = .ok (Record.encodeAll out) ∧
      (∀ run ∈ buffers, ∀ r ∈ outputOf opts run p, Short r) ∧
      out.Perm ((buffers.map fun run => outputOf opts run p).flatten.map restored) ∧
      ((∀ run ∈ buffers, Ordered ((outputOf opts run p).map restored)) → Ordered out)) ∨
    ∃ e, mergeContents (buffers.map fun run => Record.encodeAll (outputOf opts run p)) = .error e ∧
      ¬ ∀ run ∈ buffers, ∀ r ∈ outputOf opts run p, Short r := by
  have sources : (buffers.map fun run => Record.encodeAll (outputOf opts run p)).map
    (fun bytes => Source.ofStream { bytes := bytes }) =
      (buffers.map fun run => outputOf opts run p).map fun file => Source.ofStream { bytes := Record.encodeAll file } := by
    simp
  have files {P : List Record → Prop} : (∀ file ∈ buffers.map fun run => outputOf opts run p, P file) ↔
      ∀ run ∈ buffers, P (outputOf opts run p) := List.forall_mem_map
  unfold mergeContents
  rw [sources]
  rcases drain_files (buffers.map fun run => outputOf opts run p) with ⟨out, drained, short, perm, ordered⟩ | ⟨out, e,
    drained, long⟩
  · rw [drained]
    exact Or.inl ⟨out, rfl, files.mp short, perm, fun sorted => ordered (files.mpr sorted)⟩
  · rw [drained]
    exact Or.inr ⟨e, rfl, fun short => long (files.mpr short)⟩

theorem WithinLimits.feasible (limits : WithinLimits opts contents) : Feasible opts contents := by
  refine ⟨limits.readable, fun p below => ?_⟩
  unfold partContent
  split
  · exact ⟨_, rfl⟩
  · rcases merge_outputs opts (runs opts contents) p with ⟨out, merged, _⟩ | ⟨e, _, long⟩
    · exact ⟨_, merged⟩
    · exact absurd (fun run member => limits.short run member p below) long

/-- Without a combiner a partition file holds the records routed to it. -/
theorem partContent_routed (plain : opts.combiner = none) (text : ∀ r ∈ (emissions opts contents).flatten, restored r = r)
    {p : Nat} {content : GoString} (planned : partContent opts contents p = .ok content) :
    ∃ out, content = Record.encodeAll out ∧ out.Perm (routed opts (emissions opts contents).flatten p) ∧ Ordered out := by
  unfold partContent at planned
  split at planned
  next unspilled =>
    rw [buffer_flatten unspilled] at planned
    cases planned
    exact ⟨_, rfl, outputOf_routed plain _ p, outputOf_ordered plain _ p⟩
  next spilled =>
    have outputs := outputs_routed plain (runs opts contents) p
    rw [runs_flatten spilled] at outputs
    rcases merge_outputs opts (runs opts contents) p with ⟨out, merged, _, perm, ordered⟩ | ⟨e, merged, _⟩
    · rw [merged] at planned
      cases planned
      rw [map_restored fun r inside => text r (List.mem_of_mem_filter (outputs.subset inside))] at perm
      refine ⟨out, rfl, perm.trans outputs, ordered fun run member => ?_⟩
      rw [map_restored fun r inside => ?_]
      · exact outputOf_ordered plain run p
      · refine text r (List.mem_of_mem_filter (outputs.subset ?_))
        exact List.mem_flatten_of_mem (List.mem_map_of_mem member) inside
    · rw [merged] at planned
      cases planned

theorem partContent_ok (plain : opts.combiner = none) (short : ∀ r ∈ (emissions opts contents).flatten, Short r) (p : Nat) :
    ∃ content, partContent opts contents p = .ok content := by
  unfold partContent
  split
  next => exact ⟨_, rfl⟩
  next spilled =>
    rcases merge_outputs opts (runs opts contents) p with ⟨out, merged, _⟩ | ⟨e, _, long⟩
    · exact ⟨_, merged⟩
    · refine absurd (fun run member r inside => short r ?_) long
      rw [← runs_flatten spilled]
      exact List.mem_flatten_of_mem member (List.mem_of_mem_filter ((outputOf_routed plain run p).subset inside))

/-- What an attempt may publish without a combiner, whatever the size of its buffer. -/
theorem published_routed (opts : Options) (plain : opts.combiner = none)
    (text : ∀ r ∈ emitted opts.mapper contents opts.inputFiles, restored r = r)
    {p : Nat} {content : GoString} (planned : partContent (effective opts) contents p = .ok content) :
    ∃ out, content = Record.encodeAll out ∧ out.Perm (routed opts (emitted opts.mapper contents opts.inputFiles) p) ∧
      Ordered out := by
  have all := emissions_flatten (effective opts) contents
  rw [effective_mapper, effective_inputFiles] at all
  have result := partContent_routed ((effective_combiner opts).trans plain) (all ▸ text) planned
  rwa [all, routed, effective_numReducers] at result

end Output
end FromScratch.Proofs.MapOutput
