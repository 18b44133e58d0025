import FromScratch.Lib.StableSort
import FromScratch.Proofs.MergeOrder

/-! What `Next` delivers call by call: the stable sort of what the sources hold, and then
the end. Between two calls each source that has more is in the heap once. -/

namespace FromScratch.Proofs.MergeSorted
open FromScratch.MapReduce Codec MergeOrder
open Lib (stableSort stableSort_least stableSort_perm stableSort_stable)

section Sources
variable {source : Source} {record : Record} {records : List Record}

theorem readAll_nil (read : source.readAll = .ok []) : source.next = .ok none := by
  rw [Source.readAll.eq_def] at read
  split at read
  · cases read
  next finished => exact finished
  next record later _ =>
    cases more : later.readAll with
    | error e => rw [more] at read; cases read
    | ok => rw [more] at read; cases read

theorem readAll_cons (read : source.readAll = .ok (record :: records)) :
    ∃ later, source.next = .ok (some (record, later)) ∧ later.readAll = .ok records := by
  rw [Source.readAll.eq_def] at read
  split at read
  · cases read
  · cases read
  next first later here =>
    cases more : later.readAll with
    | error e => rw [more] at read; cases read
    | ok rest =>
      rw [more] at read
      cases read
      exact ⟨later, here, more⟩

end Sources

/-- The entries of the sources that have more, which begin with the source `i`. -/
def heads (i : Nat) : List (List Record) → List Entry
  | [] => []
  | [] :: queues => heads (i + 1) queues
  | (record :: _) :: queues => ⟨record, i⟩ :: heads (i + 1) queues

section Heads
variable {i : Nat} {queues before after : List (List Record)} {entry : Entry}

theorem heads_append (i : Nat) (before after : List (List Record)) :
    heads i (before ++ after) = heads i before ++ heads (i + before.length) after := by
  induction before generalizing i with
  | nil => rfl
  | cons queue before ih =>
    have later := ih (i + 1)
    rw [Nat.add_assoc, Nat.add_comm 1] at later
    cases queue with
    | nil => exact later
    | cons record queue => exact congrArg _ later

theorem heads_nil : heads i queues = [] ↔ queues.flatten = [] := by
  induction queues generalizing i with
  | nil => exact iff_of_true rfl rfl
  | cons queue queues ih =>
    cases queue with
    | nil => exact ih
    | cons record queue => exact iff_of_false (List.cons_ne_nil _ _) (List.cons_ne_nil _ _)

/-- An entry of the heap is the first of what its source has left. -/
theorem heads_split (member : entry ∈ heads i queues) :
    ∃ before queue after, queues = before ++ (entry.record :: queue) :: after ∧ entry.source = i + before.length := by
  induction queues generalizing i with
  | nil => cases member
  | cons first queues ih =>
    have later : entry ∈ heads (i + 1) queues →
        ∃ before queue after, first :: queues = before ++ (entry.record :: queue) :: after ∧ entry.source =
          i + before.length := by
      intro member
      obtain ⟨before, queue, after, rfl, place⟩ := ih member
      exact ⟨first :: before, queue, after, rfl, by rw [place, List.length_cons]; omega⟩
    cases first with
    | nil => exact later member
    | cons record queue =>
      rcases List.mem_cons.mp member with rfl | member
      · exact ⟨[], queue, queues, rfl, rfl⟩
      · exact later member

/-- What a source has left begins with its entry in the heap. -/
theorem heads_mem {record : Record} {queue : List Record} (member : record :: queue ∈ queues) :
    ∃ entry ∈ heads i queues, entry.record = record ∧ i ≤ entry.source ∧ entry.source < i + queues.length := by
  obtain ⟨before, after, rfl⟩ := List.append_of_mem member
  refine ⟨⟨record, i + before.length⟩, ?_, rfl, Nat.le_add_right _ _, ?_⟩
  · rw [heads_append]
    exact List.mem_append_right _ List.mem_cons_self
  · simp only [List.length_append, List.length_cons]
    omega

end Heads

/-- A merger that runs, and what each of its sources has not delivered. -/
structure Holding (m : Merger) (left : List (List Record)) : Prop where
  running : m.err = none
  primed : m.primed = true
  heap : m.heap.Perm (heads 0 left)
  behind : m.sources.map Source.readAll = left.map fun queue => .ok queue.tail

section Steps
variable {m : Merger} {left : List (List Record)}

theorem Holding.nothing (holding : Holding m left) (finished : left.flatten = []) : m.next = (.ok none, m) := by
  have empty : m.heap = [] := (heads_nil.mpr finished ▸ holding.heap).eq_nil
  simp only [Merger.next, Merger.pop, holding.running, holding.primed, empty, if_true, Entry.popMin]

/-- What the heap's least entry is less than. -/
theorem lowest {queue : List Record} {before after : List (List Record)} {top : Entry} (place : top.source = before.length)
    (least : ∀ entry ∈ heads 0 (before ++ (top.record :: queue) :: after), rank top ≤ rank entry)
    (ordered : ∀ other ∈ before ++ (top.record :: queue) :: after, Ordered other) :
    (∀ r ∈ before.flatten, top.record.key < r.key) ∧ ∀ r ∈ queue ++ after.flatten, top.record.key ≤ r.key := by
  have below : ∀ {queues : List (List Record)} {i : Nat} {first : Record} {rest : List Record}, first :: rest ∈ queues →
      (∀ entry ∈ heads i queues, rank top ≤ rank entry) → Ordered (first :: rest) → ∀ r ∈ first :: rest,
        top.record.key ≤ r.key ∧ (i + queues.length ≤ top.source → top.record.key < r.key) := by
    intro queues i first rest member least sorted r inside
    obtain ⟨entry, listed, rfl, _, early⟩ := heads_mem member
    have lower := least entry listed
    rw [rank, rank, Prod.Lex.toLex_le_toLex] at lower
    have onward : entry.record.key ≤ r.key := by
      rcases List.mem_cons.mp inside with rfl | later
      · exact le_rfl
      · exact (List.pairwise_cons.mp sorted).1 r later
    rcases lower with less | ⟨same, order⟩
    · exact ⟨(less.trans_le onward).le, fun _ => less.trans_le onward⟩
    · exact ⟨same.le.trans onward, fun late => by simp only at order; omega⟩
  rw [heads_append] at least
  refine ⟨fun r member => ?_, fun r member => ?_⟩
  · obtain ⟨other, listed, inside⟩ := List.mem_flatten.mp member
    obtain ⟨first, rest, rfl⟩ := List.exists_cons_of_ne_nil (List.ne_nil_of_mem inside)
    refine (below listed (fun entry here => least entry (List.mem_append_left _ here))
      (ordered _ (List.mem_append_left _ listed)) r inside).2 ?_
    omega
  · rcases List.mem_append.mp member with same | member
    · have sorted : Ordered (top.record :: queue) := ordered _ (List.mem_append_right _ List.mem_cons_self)
      exact (List.pairwise_cons.mp sorted).1 r same
    · obtain ⟨other, listed, inside⟩ := List.mem_flatten.mp member
      obtain ⟨first, rest, rfl⟩ := List.exists_cons_of_ne_nil (List.ne_nil_of_mem inside)
      exact (below listed (fun entry here => least entry (List.mem_append_right _ (List.mem_cons_of_mem _ here)))
        (ordered _ (List.mem_append_right _ (List.mem_cons_of_mem _ listed))) r inside).1

/-- One call of `Next` while something is left. -/
theorem Holding.step (holding : Holding m left) (ordered : ∀ queue ∈ left, Ordered queue) (more : left.flatten ≠ []) :
    ∃ before r queue after, left = before ++ (r :: queue) :: after ∧ m.next.1 = .ok (some r) ∧
      Holding m.next.2 (before ++ queue :: after) ∧ (∀ other ∈ before.flatten, r.key < other.key) ∧
      ∀ other ∈ queue ++ after.flatten, r.key ≤ other.key := by
  cases popped : Entry.popMin m.heap with
  | none =>
    have empty := holding.heap
    rw [popMin_none popped] at empty
    exact absurd (heads_nil.mp empty.symm.eq_nil) more
  | some pair =>
    obtain ⟨top, rest⟩ := pair
    obtain ⟨same, _⟩ := popMin_some popped
    have entries := holding.heap
    obtain ⟨before, queue, after, rfl, place⟩ := heads_split (entries.subset (same.symm.subset List.mem_cons_self))
    rw [Nat.zero_add] at place
    have least : ∀ entry ∈ heads 0 (before ++ (top.record :: queue) :: after), rank top ≤ rank entry := by
      intro entry member
      rcases List.mem_cons.mp (same.subset (entries.symm.subset member)) with rfl | later
      · exact le_rfl
      · exact popMin_least popped entry later
    obtain ⟨lower, upper⟩ := lowest place least ordered
    -- the rest of the heap, once the entry of this source is out
    have others : rest.Perm (heads 0 before ++ heads (before.length + 1) after) := by
      have whole := same.symm.trans entries
      rw [heads_append, heads, Nat.zero_add] at whole
      have entry : top = ⟨top.record, before.length⟩ := by rw [← place]
      rw [← entry] at whole
      exact (whole.trans List.perm_middle).cons_inv
    have behind := holding.behind
    rw [List.map_append, List.map_cons, List.tail_cons] at behind
    obtain ⟨early, late, split, earlier, later⟩ := List.map_eq_append_iff.mp behind
    obtain ⟨source, following, rfl, read, remaining⟩ := List.map_eq_cons_iff.mp later
    have index : early.length = top.source := by
      have count := congrArg List.length earlier
      rw [List.length_map, List.length_map] at count
      omega
    have here : m.sources.getD top.source { lines := [] } = source := by
      rw [split, ← index, List.getD_eq_getElem?_getD, List.getElem?_append_right le_rfl, Nat.sub_self]
      rfl
    refine ⟨before, top.record, queue, after, rfl, ?_⟩
    cases queue with
    | nil =>
      have taken : m.next = (.ok (some top.record), { m with heap := rest }) := by
        simp only [Merger.next, Merger.pop, holding.running, holding.primed, if_true, popped, here, readAll_nil read]
      rw [taken]
      refine ⟨rfl, ⟨holding.running, holding.primed, ?_, ?_⟩, lower, upper⟩
      · rw [heads_append, heads, Nat.zero_add]
        exact others
      · rw [List.map_append, List.map_cons]
        exact behind
    | cons record queue =>
      obtain ⟨next, found, read⟩ := readAll_cons read
      have taken : m.next = (.ok (some top.record), { m with
          heap := { record := record, source := top.source } :: rest, sources := m.sources.set top.source next }) := by
        simp only [Merger.next, Merger.pop, holding.running, holding.primed, if_true, popped, here, found]
      rw [taken]
      refine ⟨rfl, ⟨holding.running, holding.primed, ?_, ?_⟩, lower, upper⟩
      · rw [heads_append, heads, Nat.zero_add, place]
        exact (others.cons _).trans List.perm_middle.symm
      · simp only [split, ← index]
        rw [List.set_append_right _ _ le_rfl, Nat.sub_self, List.set_cons_zero, List.map_append, List.map_cons,
          List.map_append,
          List.map_cons, earlier, remaining, read]
        rfl

end Steps

section Runs
variable {sources : List Source} {files : List (List Record)}

theorem primeFrom_heads (i : Nat) (read : sources.map Source.readAll = files.map .ok) : ∃ later,
    Merger.primeFrom i sources = .ok (heads i files, later) ∧ later.map Source.readAll = files.map fun file =>
      .ok file.tail := by
  induction files generalizing i sources with
  | nil =>
    rw [List.map_eq_nil_iff.mp read]
    exact ⟨[], rfl, rfl⟩
  | cons file files ih =>
    obtain ⟨source, rest, rfl, first, others⟩ := List.map_eq_cons_iff.mp read
    obtain ⟨later, primes, behind⟩ := ih (i + 1) others
    rw [Merger.primeFrom]
    cases file with
    | nil =>
      simp only [readAll_nil first, primes]
      exact ⟨source :: later, rfl, by rw [List.map_cons, List.map_cons, first, behind]; rfl⟩
    | cons record file =>
      obtain ⟨next, found, read⟩ := readAll_cons first
      simp only [found, primes]
      exact ⟨next :: later, rfl, by rw [List.map_cons, List.map_cons, read, behind]; rfl⟩

/-- The first call primes the merger. -/
theorem exists_primed (read : sources.map Source.readAll = files.map .ok) :
    ∃ m, Holding m files ∧ ({ sources := sources } : Merger).next = m.next := by
  obtain ⟨later, primes, behind⟩ := primeFrom_heads 0 read
  refine ⟨{ sources := later, heap := heads 0 files, primed := true }, ⟨rfl, rfl, .refl _, behind⟩, ?_⟩
  simp only [Merger.next, Merger.prime, primes]
  rfl

/-- The merger after some calls of `Next`. -/
def after (m : Merger) (calls : Nat) : Merger := (fun m => m.next.2)^[calls] m

theorem after_succ (m : Merger) (calls : Nat) : after m (calls + 1) = (after m calls).next.2 :=
  Function.iterate_succ_apply' _ calls m

/-- How much of each source has been delivered, and what it has left. -/
structure Dealt (files : List (List Record)) (calls : Nat) (m : Merger) (split : List (List Record × List Record)) :
    Prop where
  whole : files = split.map fun file => file.1 ++ file.2
  delivered : (split.flatMap Prod.fst).Perm ((stableSort Record.key files.flatten).take calls)
  /-- One record of each source that is not exhausted. -/
  heap : m.heap.Perm (heads 0 (split.map Prod.snd))

theorem Dealt.ordered {m : Merger} {calls : Nat} {split : List (List Record × List Record)}
    (dealt : Dealt files calls m split)
    (ordered : ∀ file ∈ files, Ordered file) : ∀ queue ∈ split.map Prod.snd, Ordered queue := by
  intro queue member
  obtain ⟨file, listed, rfl⟩ := List.mem_map.mp member
  have sorted := ordered (file.1 ++ file.2) (by rw [dealt.whole]; exact List.mem_map_of_mem listed)
  exact (List.pairwise_append.mp sorted).2.1

theorem exists_dealt {m : Merger} (holding : Holding m files) (ordered : ∀ file ∈ files, Ordered file) (calls : Nat) :
    ∃ split, Dealt files calls (after m calls) split ∧ Holding (after m calls) (split.map Prod.snd) ∧
      stableSort Record.key (split.map Prod.snd).flatten = (stableSort Record.key files.flatten).drop calls := by
  induction calls with
  | zero =>
    have left : (files.map fun file => (([], file) : List Record × List Record)).map Prod.snd = files := by
      rw [List.map_map]
      exact List.map_id files
    refine ⟨files.map fun file => ([], file), ⟨?_, ?_, ?_⟩, ?_, ?_⟩
    · rw [List.map_map]
      exact (List.map_id files).symm
    · rw [List.take_zero, List.flatMap_map, List.flatMap_eq_nil_iff.mpr fun _ _ => rfl]
    · rw [left]
      exact holding.heap
    · rw [left]
      exact holding
    · rw [left, List.drop_zero]
  | succ calls ih =>
    obtain ⟨split, dealt, holding, remains⟩ := ih
    have next := after_succ m calls
    have suffixes := dealt.ordered ordered
    by_cases more : (split.map Prod.snd).flatten = []
    · rw [more] at remains
      have short := List.drop_eq_nil_iff.mp remains.symm
      rw [next, holding.nothing more]
      refine ⟨split, ⟨dealt.whole, ?_, dealt.heap⟩, holding, ?_⟩
      · rw [List.take_of_length_le (by omega)]
        have delivered := dealt.delivered
        rwa [List.take_of_length_le short] at delivered
      · rw [more, List.drop_eq_nil_of_le (by omega)]
        rfl
    · obtain ⟨before, r, queue, behind, left, answer, holding', lower, upper⟩ := holding.step suffixes more
      obtain ⟨early, rest, rfl, rfl, later⟩ := List.map_eq_append_iff.mp left
      obtain ⟨⟨taken, _⟩, late, rfl, rfl, rfl⟩ := List.map_eq_cons_iff.mp later
      have first : stableSort Record.key (early.map Prod.snd ++ (r :: queue) :: late.map Prod.snd).flatten =
          r :: stableSort Record.key (early.map Prod.snd ++ queue :: late.map Prod.snd).flatten := by
        rw [List.flatten_append, List.flatten_append, List.flatten_cons, List.flatten_cons, List.cons_append]
        exact stableSort_least lower upper
      rw [List.map_append, List.map_cons, first] at remains
      have place : (stableSort Record.key files.flatten)[calls]? = some r := by rw [← List.head?_drop, ← remains]; rfl
      have split : (early ++ (taken ++ [r], queue) :: late).map Prod.snd = early.map Prod.snd ++
        queue :: late.map Prod.snd := by
        rw [List.map_append, List.map_cons]
      refine ⟨early ++ (taken ++ [r], queue) :: late, ⟨?_, ?_, ?_⟩, ?_, ?_⟩
      · rw [dealt.whole, List.map_append, List.map_cons, List.map_append, List.map_cons, List.append_assoc]
        rfl
      · rw [List.take_add_one, place]
        refine List.Perm.trans ?_ (dealt.delivered.append_right [r])
        rw [List.flatMap_append, List.flatMap_cons, List.flatMap_append, List.flatMap_cons, List.append_assoc,
          List.append_assoc,
          List.append_assoc]
        exact (List.perm_append_comm.append_left _).append_left _
      · rw [next, split]
        exact holding'.heap
      · rw [next, split]
        exact holding'
      · rw [split, ← List.tail_drop, ← remains]
        rfl

/-- What a call delivers. -/
theorem next_dealt {m : Merger} (holding : Holding m files) (ordered : ∀ file ∈ files, Ordered file) (calls : Nat) :
    (after m calls).next.1 = .ok (stableSort Record.key files.flatten)[calls]? := by
  obtain ⟨split, dealt, holding, remains⟩ := exists_dealt holding ordered calls
  rw [← List.head?_drop, ← remains]
  by_cases more : (split.map Prod.snd).flatten = []
  · rw [holding.nothing more, more]
    rfl
  · obtain ⟨before, r, queue, behind, left, answer, _, lower, upper⟩ := holding.step (dealt.ordered ordered) more
    rw [answer, left, List.flatten_append, List.flatten_cons, List.cons_append, stableSort_least lower upper]
    rfl

theorem drainFrom_dealt {m : Merger} (holding : Holding m files) (ordered : ∀ file ∈ files, Ordered file) {fuel calls : Nat}
    (enough : files.flatten.length < fuel + calls) :
    Merger.drainFrom fuel (after m calls) = ((stableSort Record.key files.flatten).drop calls, none) := by
  have length := (stableSort_perm files.flatten : (stableSort Record.key _).Perm _).length_eq
  induction fuel generalizing calls with
  | zero =>
    rw [List.drop_eq_nil_of_le (by omega)]
    rfl
  | succ fuel ih =>
    have next : (after m calls).next = (.ok (stableSort Record.key files.flatten)[calls]?, after m (calls + 1)) := by
      rw [after_succ]
      exact Prod.ext (next_dealt holding ordered calls) rfl
    rw [Merger.drainFrom, next]
    cases place : (stableSort Record.key files.flatten)[calls]? with
    | none => rw [List.drop_eq_nil_of_le (List.getElem?_eq_none_iff.mp place)]
    | some r =>
      obtain ⟨inside, here⟩ := List.getElem?_eq_some_iff.mp place
      simp only [ih (show files.flatten.length < fuel + (calls + 1) by omega)]
      rw [List.drop_eq_getElem_cons inside, here]

theorem readAll_length {source : Source} {records : List Record} (read : source.readAll = .ok records) :
    records.length ≤ source.lines.length := by
  induction records generalizing source with
  | nil => exact Nat.zero_le _
  | cons record records ih =>
    obtain ⟨later, next, rest⟩ := readAll_cons read
    exact Nat.succ_le_of_lt ((ih rest).trans_lt (Source.next_shorter next))

theorem remaining_le (read : sources.map Source.readAll = files.map .ok) :
    files.flatten.length ≤ ({ sources := sources } : Merger).remaining := by
  rw [Merger.remaining, List.length_nil, Nat.add_zero]
  induction files generalizing sources with
  | nil => exact Nat.zero_le _
  | cons file files ih =>
    obtain ⟨source, rest, rfl, first, others⟩ := List.map_eq_cons_iff.mp read
    rw [List.flatten_cons, List.length_append, List.map_cons, List.sum_cons]
    exact Nat.add_le_add (readAll_length first) (ih others)

theorem drain_sorted (read : sources.map Source.readAll = files.map .ok) (ordered : ∀ file ∈ files, Ordered file) :
    Merger.drain { sources := sources } = (stableSort Record.key files.flatten, none) := by
  obtain ⟨m, holding, first⟩ := exists_primed read
  have drained := @drainFrom_dealt files m holding ordered _ 0 (Nat.lt_succ_of_le (remaining_le read))
  have same : ∀ fuel, Merger.drainFrom (fuel + 1) { sources := sources } = Merger.drainFrom (fuel + 1) m := by
    intro fuel
    rw [Merger.drainFrom, Merger.drainFrom, first]
  rw [Merger.drain, same]
  exact drained

/-- The merge of ordered files, where it succeeds, lists the records of a key file by file. -/
theorem drain_stable {files : List (List Record)} (ordered : ∀ file ∈ files, Ordered (file.map restored)) {out : List Record}
    (drained : Merger.drain { sources := files.map fun file => Source.ofStream { bytes := Record.encodeAll file } } =
    (out, none))
    (key : GoString) : out.filter (fun r => r.key == key) = (files.flatten.map restored).filter fun r => r.key == key := by
  have short : ∀ file ∈ files, ∀ r ∈ file, Short r := by
    rcases drain_files files with ⟨_, _, short, _⟩ | ⟨_, _, failed, _⟩
    · exact short
    · cases drained.symm.trans failed
  have read : (files.map fun file => Source.ofStream { bytes := Record.encodeAll file }).map Source.readAll =
      (files.map fun file => file.map restored).map .ok := by
    rw [List.map_map, List.map_map]
    exact List.map_congr_left fun file listed => readAll_encodeAll (short file listed)
  have sorted := drain_sorted read (List.forall_mem_map.mpr ordered)
  cases drained.symm.trans sorted
  have stable := @stableSort_stable _ _ _ Record.key (files.map fun file => file.map restored).flatten key
  rw [← List.map_flatten] at stable ⊢
  simp only [beq_eq_decide]
  convert stable

/-- Merging sources that are sorted and end without an error delivers the stable sort of what they hold, one record a
call, and then the end at every call. Between calls a source is in the heap, once, as long as it is not exhausted. -/
theorem merge_sorts (read : sources.map Source.readAll = files.map .ok) (ordered : ∀ file ∈ files, Ordered file) :
    Merger.drain { sources := sources } = (stableSort Record.key files.flatten, none) ∧ ∀ calls,
      (after { sources := sources } calls).next.1 = .ok (stableSort Record.key files.flatten)[calls]? ∧
        ∃ split, Dealt files (calls + 1) (after { sources := sources } (calls + 1)) split := by
  refine ⟨drain_sorted read ordered, fun calls => ?_⟩
  obtain ⟨m, holding, first⟩ := exists_primed read
  have same : ∀ calls, after { sources := sources } (calls + 1) = after m (calls + 1) := by
    intro calls
    rw [after, Function.iterate_succ_apply, first, ← Function.iterate_succ_apply, ← after]
  refine ⟨?_, ?_⟩
  · cases calls with
    | zero => exact (congrArg Prod.fst first).trans (next_dealt holding ordered 0)
    | succ calls =>
      rw [same]
      exact next_dealt holding ordered _
  · obtain ⟨split, dealt, _⟩ := exists_dealt holding ordered (calls + 1)
    rw [same]
    exact ⟨split, dealt⟩

def smallFiles : List (List Record) := [[⟨[97], [49]⟩, ⟨[98], [50]⟩], [⟨[97], [51]⟩], []]

theorem merge_sorts_small : Merger.drain { sources := smallFiles.map fun file => { lines := file.map line } } =
    ([⟨[97], [49]⟩, ⟨[97], [51]⟩, ⟨[98], [50]⟩], none) := by
  have text : ∀ file ∈ smallFiles, file.map restored = file := by decide +kernel
  have read : (smallFiles.map fun file => { lines := file.map line }).map Source.readAll = smallFiles.map .ok := by
    rw [List.map_map]
    refine List.map_congr_left fun file member => ?_
    exact (readAll_lines file).trans (congrArg _ (text file member))
  have ordered : ∀ file ∈ smallFiles, Ordered file := by
    simp [smallFiles, Ordered]
    decide
  exact (merge_sorts read ordered).1.trans (by decide +kernel)

end Runs
end FromScratch.Proofs.MergeSorted
