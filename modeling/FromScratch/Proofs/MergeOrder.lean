import Mathlib.Data.List.GetD
import Mathlib.Data.Prod.Lex
import FromScratch.MapReduce.Merge
import FromScratch.Proofs.Codec

/-! The merge loses nothing, invents nothing and keeps the order of its sources. -/

namespace FromScratch.Proofs.MergeOrder
open FromScratch.MapReduce Codec

def Ordered (records : List Record) : Prop := records.Pairwise fun a b => a.key ≤ b.key

section Heap
variable {heap rest : List Entry} {top : Entry}

theorem less_key {a b : Entry} (less : a.less b = true) : a.record.key ≤ b.record.key := by
  unfold Entry.less at less
  split at less
  next => exact le_of_lt (of_decide_eq_true less)
  next same => exact le_of_eq (not_not.mp same)

theorem not_less_key {a b : Entry} (greater : ¬ a.less b = true) : b.record.key ≤ a.record.key := by
  unfold Entry.less at greater
  split at greater
  next => exact not_lt.mp fun lower => greater (decide_eq_true lower)
  next same => exact le_of_eq (not_not.mp same).symm

theorem popMin_none (empty : Entry.popMin heap = none) : heap = [] := by
  cases heap with
  | nil => rfl
  | cons entry heap =>
    rw [Entry.popMin] at empty
    split at empty
    · cases empty
    · split at empty <;> cases empty

theorem popMin_some (popped : Entry.popMin heap = some (top, rest)) :
    heap.Perm (top :: rest) ∧ ∀ entry ∈ rest, top.record.key ≤ entry.record.key := by
  induction heap generalizing top rest with
  | nil => cases popped
  | cons entry heap ih =>
    rw [Entry.popMin] at popped
    split at popped
    next empty =>
      cases popped
      rw [popMin_none empty]
      exact ⟨List.Perm.refl _, nofun⟩
    next least others found =>
      obtain ⟨same, lowest⟩ := ih found
      split at popped
      next less =>
        cases popped
        refine ⟨(same.cons entry).trans (List.Perm.swap ..), fun other member => ?_⟩
        rcases List.mem_cons.mp member with rfl | member
        · exact less_key less
        · exact lowest other member
      next greater =>
        cases popped
        refine ⟨List.Perm.refl _, fun other member => ?_⟩
        have bound := not_less_key greater
        rcases List.mem_cons.mp (same.subset member) with rfl | member
        · exact bound
        · exact bound.trans (lowest other member)

/-- The heap's order: by key, then by source. -/
def rank (entry : Entry) : GoString ×ₗ Nat := toLex (entry.record.key, entry.source)

theorem less_iff (a b : Entry) : a.less b = true ↔ rank a < rank b := by
  unfold Entry.less rank
  rw [Prod.Lex.toLex_lt_toLex]
  split
  next different => simp [different]
  next same => simp [not_not.mp same]

theorem popMin_least (popped : Entry.popMin heap = some (top, rest)) : ∀ entry ∈ rest, rank top ≤ rank entry := by
  induction heap generalizing top rest with
  | nil => cases popped
  | cons entry heap ih =>
    rw [Entry.popMin] at popped
    split at popped
    next => cases popped; exact nofun
    next least others found =>
      have lowest := ih found
      obtain ⟨same, _⟩ := popMin_some found
      simp only [less_iff] at popped
      split at popped
      next less =>
        cases popped
        intro other member
        rcases List.mem_cons.mp member with rfl | member
        · exact le_of_lt less
        · exact lowest other member
      next greater =>
        cases popped
        have bound := not_lt.mp greater
        intro other member
        rcases List.mem_cons.mp (same.subset member) with rfl | member
        · exact bound
        · exact bound.trans (lowest other member)

end Heap

section Sources

/-- What a source still delivers: its records, and the error that ends it. -/
abbrev Tail := List Record × Option Err

/-- Calling `Next` until it reports the end or an error. -/
def remains (source : Source) : Tail :=
  match _read : source.next with
  | .error e => ([], some e)
  | .ok none => ([], none)
  | .ok (some (record, later)) => (record :: (remains later).1, (remains later).2)
termination_by source.lines.length
decreasing_by all_goals exact Source.next_shorter _read

variable {source : Source} {record : Record} {records : List Record} {err : Option Err} {e : Err}

theorem remains_end (read : source.next = .ok none) : remains source = ([], none) := by
  rw [remains.eq_def]
  split
  next failed => cases read.symm.trans failed
  next => rfl
  next more => cases read.symm.trans more

theorem remains_error (read : source.next = .error e) : remains source = ([], some e) := by
  rw [remains.eq_def]
  split
  next failed => cases read.symm.trans failed; rfl
  next finished => cases read.symm.trans finished
  next more => cases read.symm.trans more

theorem remains_cons {later : Source} (read : source.next = .ok (some (record, later))) :
    remains source = (record :: (remains later).1, (remains later).2) := by
  rw [remains.eq_def]
  split
  next failed => cases read.symm.trans failed
  next finished => cases read.symm.trans finished
  next more => cases read.symm.trans more; rfl

theorem next_end (left : remains source = ([], none)) : source.next = .ok none := by
  rw [remains.eq_def] at left
  split at left
  next => cases left
  next finished => exact finished
  next => cases left

theorem next_error (left : remains source = ([], some e)) : source.next = .error e := by
  rw [remains.eq_def] at left
  split at left
  next failed => cases left; exact failed
  next => cases left
  next => cases left

theorem next_cons (left : remains source = (record :: records, err)) :
    ∃ later, source.next = .ok (some (record, later)) ∧ remains later = (records, err) := by
  rw [remains.eq_def] at left
  split at left
  next => cases left
  next => cases left
  next first later more =>
    cases left
    exact ⟨later, more, rfl⟩

theorem remains_lines (records : List Record) (err : Option Err) :
    remains { lines := records.map line, err := err } = (records.map restored, err) := by
  induction records with
  | nil =>
    cases err with
    | none => exact remains_end rfl
    | some e => exact remains_error rfl
  | cons r records ih =>
    have first : ({ lines := (r :: records).map line, err := err } : Source).next =
        .ok (some (restored r, { lines := records.map line, err := err })) := by
      rw [Source.next, List.map_cons, Source.nextFrom, if_neg (line_ne_nil r), parse_line]
      rfl
    rw [remains_cons first, ih]
    rfl

theorem remains_encodeAll (records : List Record) :
    remains (Source.ofStream { bytes := Record.encodeAll records }) =
      ((readBack records).1.map restored, (readBack records).2) := by
  unfold Source.ofStream
  rw [scan_encodeAll]
  exact remains_lines _ _

theorem remains_shorter (source : Source) : (remains source).1.length ≤ source.lines.length := by
  induction left : (remains source).1 generalizing source with
  | nil => exact Nat.zero_le _
  | cons record records ih =>
    obtain ⟨later, read, rest⟩ := next_cons (Prod.ext left rfl)
    exact Nat.succ_le_of_lt ((ih later (congrArg Prod.fst rest)).trans_lt (Source.next_shorter read))

theorem remains_length (sources : List Source) :
    ((sources.map remains).flatMap Prod.fst).length ≤ ({ sources := sources } : Merger).remaining := by
  rw [Merger.remaining, List.length_nil, Nat.add_zero]
  induction sources with
  | nil => exact Nat.zero_le _
  | cons source sources ih =>
    rw [List.map_cons, List.flatMap_cons, List.length_append, List.map_cons, List.sum_cons]
    exact Nat.add_le_add (remains_shorter source) ih

theorem getD_remains (sources : List Source) (i : Nat) :
    (sources.map remains).getD i ([], none) = remains (sources.getD i { lines := [] }) := by
  have nothing : remains { lines := [] } = ([], none) := remains_end rfl
  rw [← nothing]
  exact List.getD_map sources { lines := [] } remains

/-- What the sources of a merger still deliver. -/
def queues (m : Merger) : List Tail := m.sources.map remains

/-- The first call of `Next` is over and no call has failed. -/
structure Runs (m : Merger) : Prop where
  sound : m.err = none
  primed : m.primed = true

section Pop
variable {m : Merger} {rest : List Entry} {top : Entry} (runs : Runs m) (popped : Entry.popMin m.heap = some (top, rest))
include runs popped

theorem pop_last (empty : (queues m).getD top.source ([], none) = ([], none)) :
    m.next = (.ok (some top.record), { m with heap := rest }) := by
  rw [queues, getD_remains] at empty
  simp only [Merger.next, Merger.pop, runs.sound, runs.primed, if_true, popped, next_end empty]

theorem pop_error (broken : (queues m).getD top.source ([], none) = ([], some e)) : ∃ after, m.next = (.error e, after) := by
  rw [queues, getD_remains] at broken
  simp only [Merger.next, Merger.pop, runs.sound, runs.primed, if_true, popped, next_error broken]
  exact ⟨_, rfl⟩

theorem pop_next (more : (queues m).getD top.source ([], none) = (record :: records, err)) : ∃ after,
    m.next = (.ok (some top.record), after) ∧ Runs after ∧
      after.heap = { record := record, source := top.source } :: rest ∧ queues after =
        (queues m).set top.source (records, err) := by
  rw [queues, getD_remains] at more
  obtain ⟨later, found, left⟩ := next_cons more
  simp only [Merger.next, Merger.pop, runs.sound, runs.primed, if_true, popped, found]
  refine ⟨_, rfl, ⟨rfl, rfl⟩, rfl, ?_⟩
  rw [queues, List.map_set, left]
  rfl

end Pop
end Sources

section Drain

/-- What the merger has still to deliver. -/
def pending (heap : List Entry) (tails : List Tail) : List Record :=
  heap.map Entry.record ++ tails.flatMap Prod.fst

/-- An entry of the heap leads every source that is not exhausted; where the
sources are `sorted`, with the least key of its source. -/
structure Led (sorted : Prop) (heap : List Entry) (tails : List Tail) : Prop where
  ordered : sorted → ∀ tail ∈ tails, Ordered tail.1
  led : ∀ i, ∀ r ∈ (tails.getD i ([], none)).1, ∃ entry ∈ heap, entry.source = i ∧ (sorted → entry.record.key ≤ r.key)
  failing : ∀ i, (tails.getD i ([], none)).2 ≠ none → ∃ entry ∈ heap, entry.source = i

variable {sorted : Prop} {heap rest : List Entry} {tails : List Tail} {top : Entry}

theorem getD_inside {i : Nat} {tail : Tail} (filled : tail ≠ ([], none)) (here : tails.getD i ([], none) = tail) :
    i < tails.length := by
  by_contra outside
  rw [List.getD_eq_default _ _ (not_lt.mp outside)] at here
  exact filled here.symm

theorem flatten_set {lists : List Tail} {i : Nat} {item : Record} {rest : List Record} {err : Option Err}
    (head : lists.getD i ([], none) = (item :: rest, err)) :
    (lists.flatMap Prod.fst).Perm (item :: (lists.set i (rest, err)).flatMap Prod.fst) := by
  induction lists generalizing i with
  | nil => cases head
  | cons list lists ih =>
    cases i with
    | zero =>
      cases head
      exact List.Perm.refl _
    | succ i =>
      have later := (ih head).append_left list.1
      exact later.trans List.perm_middle

/-- Sources other than the one just popped keep their leader. -/
theorem Led.step (same : heap.Perm (top :: rest)) {i : Nat} (other : i ≠ top.source) {P : Entry → Prop}
    (leads : ∃ entry ∈ heap, entry.source = i ∧ P entry) : ∃ entry ∈ rest, entry.source = i ∧ P entry := by
  obtain ⟨entry, inside, from', holds⟩ := leads
  rcases List.mem_cons.mp (same.subset inside) with rfl | inside
  · exact absurd from'.symm other
  · exact ⟨entry, inside, from', holds⟩

theorem Led.next {r : Record} {records : List Record} {err : Option Err} (led : Led sorted heap tails)
    (same : heap.Perm (top :: rest)) (more : tails.getD top.source ([], none) = (r :: records, err)) :
    Led sorted ({ record := r, source := top.source } :: rest) (tails.set top.source (records, err)) := by
  have inside := getD_inside (by simp) more
  have tail : (r :: records, err) ∈ tails := by
    rw [← more, List.getD_eq_getElem _ _ inside]
    exact List.getElem_mem inside
  have ascending (sources : sorted) := List.pairwise_cons.mp (led.ordered sources _ tail)
  have elsewhere {i : Nat} (other : i ≠ top.source) :
      (tails.set top.source (records, err)).getD i ([], none) = tails.getD i ([], none) := by
    rw [List.getD_eq_getElem?_getD, List.getElem?_set_ne (Ne.symm other), ← List.getD_eq_getElem?_getD]
  have here : (tails.set top.source (records, err)).getD top.source ([], none) = (records, err) := by
    rw [List.getD_eq_getElem?_getD, List.getElem?_set_self inside]
    rfl
  refine ⟨fun sources tail member => ?_, fun i later member => ?_, fun i broken => ?_⟩
  · rcases List.mem_or_eq_of_mem_set member with old | rfl
    · exact led.ordered sources tail old
    · exact (ascending sources).2
  · by_cases own : i = top.source
    · subst own
      rw [here] at member
      exact ⟨_, List.mem_cons_self, rfl, fun sources => (ascending sources).1 _ member⟩
    · rw [elsewhere own] at member
      obtain ⟨entry, inside, leads⟩ := Led.step same own (led.led i later member)
      exact ⟨entry, List.mem_cons_of_mem _ inside, leads⟩
  · by_cases own : i = top.source
    · exact ⟨_, List.mem_cons_self, own.symm⟩
    · rw [elsewhere own] at broken
      obtain ⟨entry, inside, named⟩ := led.failing i broken
      obtain ⟨entry, inside, named, _⟩ := Led.step (P := fun _ => True) same own ⟨entry, inside, named, trivial⟩
      exact ⟨entry, List.mem_cons_of_mem _ inside, named⟩

theorem Led.last (led : Led sorted heap tails) (same : heap.Perm (top :: rest))
    (empty : tails.getD top.source ([], none) = ([], none)) : Led sorted rest tails := by
  refine ⟨led.ordered, fun i r member => ?_, fun i broken => ?_⟩
  · by_cases own : i = top.source
    · subst own
      rw [empty] at member
      cases member
    · exact Led.step same own (led.led i r member)
  · by_cases own : i = top.source
    · subst own
      rw [empty] at broken
      exact absurd rfl broken
    · obtain ⟨entry, inside, named⟩ := led.failing i broken
      obtain ⟨entry, inside, named, _⟩ := Led.step (P := fun _ => True) same own ⟨entry, inside, named, trivial⟩
      exact ⟨entry, inside, named⟩

theorem Led.covers (led : Led sorted heap tails) {r : Record} (member : r ∈ tails.flatMap Prod.fst) :
    ∃ entry ∈ heap, sorted → entry.record.key ≤ r.key := by
  obtain ⟨tail, listed, member⟩ := List.mem_flatMap.mp member
  obtain ⟨i, range, rfl⟩ := List.getElem_of_mem listed
  obtain ⟨entry, inside, _, lower⟩ := led.led i r (by rwa [List.getD_eq_getElem _ _ range])
  exact ⟨entry, inside, lower⟩

/-- The least key of the heap is the least key of all. -/
theorem Led.least (sources : sorted) (led : Led sorted heap tails) (same : heap.Perm (top :: rest))
    (lowest : ∀ entry ∈ rest, top.record.key ≤ entry.record.key) {r : Record} (member : r ∈ pending heap tails) :
    top.record.key ≤ r.key := by
  have bound : ∀ entry ∈ heap, top.record.key ≤ entry.record.key := by
    intro entry inside
    rcases List.mem_cons.mp (same.subset inside) with rfl | inside
    · exact le_rfl
    · exact lowest entry inside
  rcases List.mem_append.mp member with first | later
  · obtain ⟨entry, inside, rfl⟩ := List.mem_map.mp first
    exact bound entry inside
  · obtain ⟨entry, there, lower⟩ := led.covers later
    exact (bound entry there).trans (lower sources)

theorem pending_step (same : heap.Perm (top :: rest)) : (pending heap tails).Perm (top.record :: pending rest tails) :=
  (same.map Entry.record).append_right _

theorem pending_next {r : Record} {records : List Record} {err : Option Err} (same : heap.Perm (top :: rest))
    (more : tails.getD top.source ([], none) = (r :: records, err)) :
    (pending heap tails).Perm (top.record ::
      pending ({ record := r, source := top.source } :: rest) (tails.set top.source (records, err))) := by
  refine (pending_step same).trans (List.Perm.cons _ ?_)
  refine ((flatten_set more).append_left _).trans ?_
  exact List.perm_middle

def Clean (tails : List Tail) : Prop := ∀ tail ∈ tails, tail.2 = none

theorem clean_set {i : Nat} {records records' : List Record} {err : Option Err} (inside : i < tails.length)
    (here : tails.getD i ([], none) = (records, err)) : Clean (tails.set i (records', err)) ↔ Clean tails := by
  have errors (tails : List Tail) : Clean tails ↔ ∀ err ∈ tails.map Prod.snd, err = none :=
    (List.forall_mem_map (P := (· = none))).symm
  rw [List.getD_eq_getElem _ _ inside] at here
  have same : (tails.set i (records', err)).map Prod.snd = tails.map Prod.snd := by
    rw [List.map_set]
    refine (congrArg _ ?_).trans (List.set_getElem_self (by simpa using inside))
    simp [here]
  rw [errors, errors, same]

/-- How a drain ends: with all that is left, or at the error of a source. -/
def Drained (sorted : Prop) (all : List Record) (tails : List Tail) (drained : List Record × Option Err) : Prop :=
  (∃ out, drained = (out, none) ∧ Clean tails ∧ out.Perm all ∧ (sorted → Ordered out)) ∨
    ∃ out e, drained = (out, some e) ∧ ¬ Clean tails

theorem drainFrom_runs {m : Merger} {fuel : Nat} (runs : Runs m) (led : Led sorted m.heap (queues m))
    (enough : (pending m.heap (queues m)).length < fuel) :
    Drained sorted (pending m.heap (queues m)) (queues m) (Merger.drainFrom fuel m) := by
  induction fuel generalizing m with
  | zero => exact absurd enough (Nat.not_lt_zero _)
  | succ fuel ih =>
    cases popped : Entry.popMin m.heap with
    | none =>
      have empty := popMin_none popped
      have nothing : m.next = (.ok none, m) := by
        simp only [Merger.next, Merger.pop, runs.sound, runs.primed, if_true, popped]
      have exhausted : (queues m).flatMap Prod.fst = [] := by
        refine List.eq_nil_iff_forall_not_mem.mpr fun r member => ?_
        obtain ⟨_, inside, _⟩ := led.covers member
        rw [empty] at inside
        cases inside
      rw [Merger.drainFrom, nothing]
      refine Or.inl ⟨[], rfl, fun tail listed => ?_, by simp [pending, empty, exhausted], fun _ => List.Pairwise.nil⟩
      by_contra broken
      obtain ⟨i, range, rfl⟩ := List.getElem_of_mem listed
      obtain ⟨_, inside, _⟩ := led.failing i (by rwa [List.getD_eq_getElem _ _ range])
      rw [empty] at inside
      cases inside
    | some pair =>
      obtain ⟨top, rest⟩ := pair
      obtain ⟨same, lowest⟩ := popMin_some popped
      -- Whatever is left after the top, the rest of the run delivers it.
      have onward {after : Merger} (next : m.next = (.ok (some top.record), after)) (runs' : Runs after)
          (led' : Led sorted after.heap (queues after))
          (left : (pending m.heap (queues m)).Perm (top.record :: pending after.heap (queues after)))
          (errors : Clean (queues after) ↔ Clean (queues m)) :
          Drained sorted (pending m.heap (queues m)) (queues m) (Merger.drainFrom (fuel + 1) m) := by
        have count := left.length_eq
        rw [List.length_cons] at count
        rw [Merger.drainFrom, next]
        simp only
        rcases ih runs' led' (by omega) with ⟨out, drained, clean, perm, ordered⟩ | ⟨out, e, drained, broken⟩
        · rw [drained]
          refine Or.inl ⟨_, rfl, errors.mp clean, (perm.cons _).trans left.symm, fun sources => ?_⟩
          refine List.pairwise_cons.mpr ⟨fun r member => ?_, ordered sources⟩
          exact led.least sources same lowest (left.symm.subset (List.mem_cons_of_mem _ (perm.subset member)))
        · rw [drained]
          exact Or.inr ⟨_, e, rfl, fun clean => broken (errors.mpr clean)⟩
      cases found : (queues m).getD top.source ([], none) with
      | mk records err =>
        cases records with
        | cons r records =>
          obtain ⟨after, next, runs', heap, behind⟩ := pop_next runs popped found
          refine onward next runs' ?_ ?_ ?_ <;> rw [behind]
          · rw [heap]
            exact led.next same found
          · rw [heap]
            exact pending_next same found
          · exact clean_set (getD_inside (by simp) found) found
        | nil =>
          cases err with
          | none =>
            exact onward (pop_last runs popped found) ⟨runs.sound, runs.primed⟩ (led.last same found)
              (pending_step same) Iff.rfl
          | some e =>
            obtain ⟨after, next⟩ := pop_error runs popped found
            rw [Merger.drainFrom, next]
            refine Or.inr ⟨[], e, rfl, fun clean => ?_⟩
            have inside := getD_inside (by simp) found
            rw [List.getD_eq_getElem _ _ inside] at found
            have ended := clean _ (List.getElem_mem inside)
            rw [found] at ended
            cases ended

end Drain

section Prime
variable {sorted : Prop}

/-- The heap `prime` builds from sources numbered from `i` on. -/
def primed (i : Nat) : List Tail → List Entry
  | [] => []
  | ([], _) :: tails => primed (i + 1) tails
  | (r :: _, _) :: tails => { record := r, source := i } :: primed (i + 1) tails

def behind (tail : Tail) : Tail := (tail.1.tail, tail.2)

theorem primeFrom_sources (i : Nat) (sources : List Source) :
    (∃ later, Merger.primeFrom i sources = .ok (primed i (sources.map remains), later) ∧
      later.map remains = (sources.map remains).map behind ∧ ∀ tail ∈ sources.map remains, tail.1 = [] → tail.2 = none) ∨
    (∃ e, Merger.primeFrom i sources = .error e) ∧ ¬ Clean (sources.map remains) := by
  induction sources generalizing i with
  | nil => exact Or.inl ⟨[], rfl, rfl, nofun⟩
  | cons source sources ih =>
    have first (broken : ¬ Clean (sources.map remains)) : ¬ Clean ((source :: sources).map remains) :=
      fun clean => broken fun other member => clean other (List.mem_cons_of_mem _ member)
    rw [Merger.primeFrom]
    cases left : remains source with
    | mk records err =>
      cases records with
      | nil =>
        cases err with
        | some e =>
          rw [next_error left]
          refine Or.inr ⟨⟨e, rfl⟩, fun clean => ?_⟩
          have ended := clean _ List.mem_cons_self
          rw [left] at ended
          cases ended
        | none =>
          rw [next_end left]
          rcases ih (i + 1) with ⟨later, primes, behind, filled⟩ | ⟨⟨e, primes⟩, broken⟩
          · simp only [primes]
            refine Or.inl ⟨source :: later, by rw [List.map_cons, left]; rfl, by simp [behind, left, MergeOrder.behind], ?_⟩
            intro other member empty
            rcases List.mem_cons.mp member with rfl | member
            · rw [left]
            · exact filled other member empty
          · simp only [primes]
            exact Or.inr ⟨⟨e, rfl⟩, first broken⟩
      | cons r records =>
        obtain ⟨after, next, rest⟩ := next_cons left
        rw [next]
        rcases ih (i + 1) with ⟨later, primes, behind, filled⟩ | ⟨⟨e, primes⟩, broken⟩
        · simp only [primes]
          refine Or.inl ⟨after :: later,
            by rw [List.map_cons, left]; rfl, by simp [behind, left, rest, MergeOrder.behind], ?_⟩
          intro other member empty
          rcases List.mem_cons.mp member with rfl | member
          · rw [left] at empty
            cases empty
          · exact filled other member empty
        · simp only [primes]
          exact Or.inr ⟨⟨e, rfl⟩, first broken⟩

theorem pending_primed (i : Nat) (tails : List Tail) :
    (pending (primed i tails) (tails.map behind)).Perm (tails.flatMap Prod.fst) := by
  induction tails generalizing i with
  | nil => exact List.Perm.refl _
  | cons tail tails ih =>
    obtain ⟨records, err⟩ := tail
    cases records with
    | nil => exact ih (i + 1)
    | cons r records =>
      have rest := (ih (i + 1)).append_left records
      simp only [pending, primed, behind, List.map_cons, List.tail_cons, List.flatMap_cons, List.cons_append]
      refine List.Perm.cons _ (List.Perm.trans ?_ rest)
      simp only [pending, ← List.append_assoc]
      exact (List.perm_append_comm).append_right _

theorem primed_leads (i : Nat) {tails : List Tail} (ordered : sorted → ∀ tail ∈ tails, Ordered tail.1)
    {j : Nat} {r : Record} (member : r ∈ ((tails.map behind).getD j ([], none)).1) :
    ∃ entry ∈ primed i tails, entry.source = i + j ∧ (sorted → entry.record.key ≤ r.key) := by
  induction tails generalizing i j with
  | nil => cases member
  | cons tail tails ih =>
    obtain ⟨records, err⟩ := tail
    have later (sources : sorted) : ∀ tail ∈ tails, Ordered tail.1 :=
      fun tail listed => ordered sources tail (List.mem_cons_of_mem _ listed)
    cases j with
    | zero =>
      cases records with
      | nil => cases member
      | cons first records =>
        refine ⟨_, List.mem_cons_self, rfl, fun sources => ?_⟩
        exact (List.pairwise_cons.mp (ordered sources _ List.mem_cons_self)).1 _ member
    | succ j =>
      obtain ⟨entry, inside, named, lower⟩ := ih (i + 1) later member
      refine ⟨entry, ?_, by omega, lower⟩
      cases records with
      | nil => exact inside
      | cons => exact List.mem_cons_of_mem _ inside

theorem primed_failing (i : Nat) {tails : List Tail} (filled : ∀ tail ∈ tails, tail.1 = [] → tail.2 = none) {j : Nat}
    (broken : ((tails.map behind).getD j ([], none)).2 ≠ none) : ∃ entry ∈ primed i tails, entry.source = i + j := by
  induction tails generalizing i j with
  | nil => exact absurd rfl broken
  | cons tail tails ih =>
    obtain ⟨records, err⟩ := tail
    cases j with
    | zero =>
      cases records with
      | nil => exact absurd (filled _ List.mem_cons_self rfl) broken
      | cons first records => exact ⟨_, List.mem_cons_self, rfl⟩
    | succ j =>
      obtain ⟨entry, inside, named⟩ := ih (i + 1) (fun tail listed => filled tail (List.mem_cons_of_mem _ listed)) broken
      refine ⟨entry, ?_, by omega⟩
      cases records with
      | nil => exact inside
      | cons => exact List.mem_cons_of_mem _ inside

/-- A drain delivers all that the sources do, in order if each source is, unless one of them ends with an error. -/
theorem drain_sources (sources : List Source) :
    Drained (∀ tail ∈ sources.map remains, Ordered tail.1) ((sources.map remains).flatMap Prod.fst) (sources.map remains)
      (Merger.drain { sources := sources }) := by
  rcases primeFrom_sources 0 sources with ⟨later, primes, left, filled⟩ | ⟨⟨e, primes⟩, broken⟩
  · generalize tails_eq : sources.map remains = tails at *
    let m : Merger := { sources := later, heap := primed 0 tails, primed := true }
    have runs : Runs m := ⟨rfl, rfl⟩
    have queued : queues m = tails.map behind := left
    have led : Led (∀ tail ∈ tails, Ordered tail.1) m.heap (queues m) := by
      rw [queued]
      refine ⟨fun ordered tail listed => ?_, fun j r member => ?_, fun j broken => ?_⟩
      · obtain ⟨file, inside, rfl⟩ := List.mem_map.mp listed
        exact (ordered file inside).tail
      · simpa [m] using primed_leads 0 id member
      · simpa [m] using primed_failing 0 filled broken
    have first : ({ sources := sources } : Merger).next = m.next := by
      simp only [Merger.next, Merger.prime, primes]
      rfl
    have all : (pending m.heap (queues m)).Perm (tails.flatMap Prod.fst) := queued ▸ pending_primed 0 tails
    have count : (tails.flatMap Prod.fst).length ≤ ({ sources := sources } : Merger).remaining := by
      rw [← tails_eq]
      exact remains_length sources
    have drained := drainFrom_runs runs led (Nat.lt_succ_of_le (all.length_eq.le.trans count))
    have errors : Clean (queues m) ↔ Clean tails := by
      rw [queued]
      exact List.forall_mem_map (P := fun tail : Tail => tail.2 = none)
    rw [Merger.drain]
    rw [Merger.drainFrom] at drained ⊢
    rw [first]
    rcases drained with ⟨out, drained, clean, perm, ordered⟩ | ⟨out, e, drained, broken⟩
    · exact Or.inl ⟨out, drained, errors.mp clean, perm.trans all, ordered⟩
    · exact Or.inr ⟨out, e, drained, fun clean => broken (errors.mpr clean)⟩
  · have failed : ({ sources := sources } : Merger).next = (.error e, { sources := sources, err := some e }) := by
      simp only [Merger.next, Merger.prime, primes]
      rfl
    rw [Merger.drain, Merger.drainFrom, failed]
    exact Or.inr ⟨[], e, rfl, broken⟩

theorem tokens_readErr {readErr : Option Err} {line : GoString} {others : List GoString}
    (clean : (Scanner.tokens readErr line others).2 = none) : readErr = none := by
  induction others generalizing line with
  | nil =>
    rw [Scanner.tokens] at clean
    split at clean
    · exact clean
    · split at clean
      · cases clean
      · exact clean
  | cons next others ih =>
    rw [Scanner.tokens] at clean
    split at clean
    · cases clean
    · exact ih clean

theorem nextFrom_end {err : Option Err} {lines : List GoString} (finished : Source.nextFrom err lines = .ok none) :
    err = none := by
  induction lines with
  | nil =>
    cases err with
    | none => rfl
    | some e => cases finished
  | cons line lines ih =>
    rw [Source.nextFrom] at finished
    split at finished
    · exact ih finished
    · cases parsed : Record.parse line with
      | error e => rw [parsed] at finished; cases finished
      | ok record => rw [parsed] at finished; cases finished

theorem nextFrom_err {err : Option Err} {lines : List GoString} {record : Record} {later : Source}
    (read : Source.nextFrom err lines = .ok (some (record, later))) : later.err = err := by
  induction lines with
  | nil => cases err <;> cases read
  | cons line lines ih =>
    rw [Source.nextFrom] at read
    split at read
    · exact ih read
    · cases parsed : Record.parse line with
      | error e => rw [parsed] at read; cases read
      | ok record => rw [parsed] at read; cases read; rfl

/-- An error that ends a source is not lost on the way. -/
theorem remains_err {source : Source} (clean : (remains source).2 = none) : source.err = none := by
  induction left : (remains source).1 generalizing source with
  | nil => exact nextFrom_end (next_end (Prod.ext left clean))
  | cons record records ih =>
    obtain ⟨later, read, rest⟩ := next_cons (Prod.ext left rfl)
    exact (nextFrom_err read).symm.trans (ih (by rw [rest, clean]) (by rw [rest]))

/-- A merge that reaches the end of all its files has read them all. -/
theorem drain_readErr {streams : List Stream} (clean : (Merger.drain { sources := streams.map Source.ofStream }).2 = none)
    {stream : Stream} (member : stream ∈ streams) : stream.readErr = none := by
  rcases drain_sources (streams.map Source.ofStream) with ⟨_, _, whole, _⟩ | ⟨_, _, failed, _⟩
  · have finished := whole _ (List.mem_map_of_mem (List.mem_map_of_mem member))
    exact tokens_readErr (remains_err finished)
  · rw [failed] at clean
    cases clean

/-- Merging whole files delivers all their records, in order if each file is,
unless a line among them is too long. -/
theorem drain_files (files : List (List Record)) :
    (∃ out, Merger.drain { sources := files.map fun file => Source.ofStream { bytes := Record.encodeAll file } } =
    (out, none) ∧
      (∀ file ∈ files, ∀ r ∈ file, Short r) ∧ out.Perm (files.flatten.map restored) ∧
      ((∀ file ∈ files, Ordered (file.map restored)) → Ordered out)) ∨
    ∃ out e, Merger.drain { sources := files.map fun file => Source.ofStream { bytes := Record.encodeAll file } } =
      (out, some e) ∧
      ¬ ∀ file ∈ files, ∀ r ∈ file, Short r := by
  have read : (files.map fun file => Source.ofStream { bytes := Record.encodeAll file }).map remains =
      files.map fun file => ((readBack file).1.map restored, (readBack file).2) := by
    rw [List.map_map]
    exact List.map_congr_left fun file _ => remains_encodeAll file
  have clean : Clean (files.map fun file => ((readBack file).1.map restored, (readBack file).2)) ↔
      ∀ file ∈ files, ∀ r ∈ file, Short r := by
    refine ⟨fun clean file listed => short_of_readBack ?_, fun short tail listed => ?_⟩
    · exact List.forall_mem_map.mp clean file listed
    · obtain ⟨file, inside, rfl⟩ := List.mem_map.mp listed
      rw [readBack_short (short file inside)]
  have drained := drain_sources (files.map fun file => Source.ofStream { bytes := Record.encodeAll file })
  rw [read] at drained
  rcases drained with ⟨out, drained, whole, perm, ordered⟩ | ⟨out, e, drained, broken⟩
  · have short := clean.mp whole
    have all : (files.map fun file => ((readBack file).1.map restored, (readBack file).2)) =
        files.map fun file => (file.map restored, none) :=
      List.map_congr_left fun file listed => by rw [readBack_short (short file listed)]
    rw [all] at perm ordered
    refine Or.inl ⟨out, drained, short, ?_, fun sorted => ordered fun tail listed => ?_⟩
    · rwa [List.flatMap_map, ← List.map_flatMap, List.flatMap_id'] at perm
    · obtain ⟨file, inside, rfl⟩ := List.mem_map.mp listed
      exact sorted file inside
  · exact Or.inr ⟨out, e, drained, fun short => broken (clean.mpr short)⟩

end Prime
end FromScratch.Proofs.MergeOrder
