import Mathlib.Data.List.Nodup
import Mathlib.Data.List.Pairwise
import Mathlib.Logic.Function.Basic
import Mathlib.Tactic.ByContra

/-! Tasks that read and write a common store, run level by level. When no task
writes what another of its level, or of an earlier one, reads, what the store
holds in the end is a fixed point of all tasks, and depends neither on the
levels nor on what the written keys held before. -/

namespace FromScratch.Lib

structure Task (κ ν ε : Type) where
  reads : List κ
  write : κ
  eval : List ν → Except ε ν

namespace Dataflow
variable {α κ ν ε : Type} (task : α → Task κ ν ε)

def Writes (items : List α) (key : κ) : Prop := ∃ item ∈ items, (task item).write = key

/-- What an item makes of the store it reads. -/
def value (store : κ → ν) (item : α) : Except ε ν := (task item).eval ((task item).reads.map store)

/-- Every item of the level has read the store before the level. -/
structure Ends (level : List α) (before after : κ → ν) : Prop where
  written : ∀ item ∈ level, value task before item = .ok (after (task item).write)
  frame : ∀ key, ¬Writes task level key → after key = before key

def Runs : List (List α) → (κ → ν) → (κ → ν) → Prop
  | [], before, after => after = before
  | level :: later, before, after => ∃ middle, Ends task level before middle ∧ Runs later middle after

/-- Every item has written what it makes of the store itself. -/
structure Solves (items : List α) (base store : κ → ν) : Prop where
  written : ∀ item ∈ items, value task store item = .ok (store (task item).write)
  frame : ∀ key, ¬Writes task items key → store key = base key

def Distinct (items : List α) : Prop := items.Pairwise fun first second => (task first).write ≠ (task second).write

/-- Nothing a level reads is written by it or later, and every key is written once. -/
def Legal : List (List α) → Prop
  | [] => True
  | level :: later =>
    (∀ item ∈ level, ∀ key ∈ (task item).reads, ¬Writes task (level ++ later.flatten) key) ∧
      (∀ item ∈ level, ¬Writes task later.flatten (task item).write) ∧ Distinct task level ∧ Legal later

/-- Something is true of what each item reads, as far as the levels get. -/
def Throughout (holds : α → List ν → Prop) : List (List α) → (κ → ν) → Prop
  | [], _ => True
  | level :: later, before =>
    (∀ item ∈ level, holds item ((task item).reads.map before)) ∧
      ∀ after, Ends task level before after → Throughout holds later after

variable {task}

section Writes
variable {items others : List α} {key : κ}

theorem writes_append : Writes task (items ++ others) key ↔ Writes task items key ∨ Writes task others key := by
  simp only [Writes, List.mem_append, or_and_right, exists_or]

theorem writes_of_mem {item : α} (member : item ∈ items) : Writes task items (task item).write :=
  ⟨item, member, rfl⟩

theorem writes_perm (perm : items.Perm others) : Writes task items key ↔ Writes task others key := by
  simp only [Writes, perm.mem_iff]

theorem not_writes_append : ¬Writes task (items ++ others) key ↔ ¬Writes task items key ∧ ¬Writes task others key := by
  rw [writes_append, not_or]

theorem value_congr {item : α} {first second : κ → ν} (same : ∀ key ∈ (task item).reads, first key = second key) :
    value task first item = value task second item := by
  rw [value, value, List.map_congr_left same]

end Writes

section Level
variable {level : List α} {before after other : κ → ν}

theorem Ends.perm {shuffled : List α} (perm : shuffled.Perm level) :
    Ends task shuffled before after ↔ Ends task level before after := by
  constructor
  · intro ends
    exact ⟨fun item member => ends.written item (perm.mem_iff.mpr member),
      fun key outside => ends.frame key (mt (writes_perm perm).mp outside)⟩
  · intro ends
    exact ⟨fun item member => ends.written item (perm.mem_iff.mp member),
      fun key outside => ends.frame key (mt (writes_perm perm).mpr outside)⟩

theorem Distinct.perm {shuffled : List α} (perm : shuffled.Perm level) (distinct : Distinct task level) :
    Distinct task shuffled :=
  (perm.pairwise_iff fun differ => differ.symm).mpr distinct

theorem Distinct.differ (distinct : Distinct task level) {item second : α} (here : item ∈ level) (there : second ∈ level)
    (different : item ≠ second) : (task item).write ≠ (task second).write :=
  haveI : Std.Symm fun first second => (task first).write ≠ (task second).write := ⟨fun _ _ => Ne.symm⟩
  List.Pairwise.forall distinct here there different

theorem Ends.unique (first : Ends task level before after) (second : Ends task level before other) : after = other := by
  funext key
  by_cases written : Writes task level key
  · obtain ⟨item, member, rfl⟩ := written
    exact Except.ok.inj ((first.written item member).symm.trans (second.written item member))
  · rw [first.frame key written, second.frame key written]

/-- An item may go first when the others read and write elsewhere. -/
theorem ends_cons [DecidableEq κ] {item : α} {result : ν} (apart : ∀ reader ∈ level, (task item).write ∉ (task reader).reads)
    (differ : ∀ writer ∈ level, (task item).write ≠ (task writer).write) (made : value task before item = .ok result) :
    Ends task (item :: level) before after ↔ Ends task level (Function.update before (task item).write result) after := by
  have reads : ∀ reader ∈ level,
      value task (Function.update before (task item).write result) reader = value task before reader := by
    intro reader member
    refine value_congr fun key read => Function.update_of_ne ?_ _ _
    rintro rfl
    exact apart reader member read
  constructor
  · intro ends
    refine ⟨fun reader member => ?_, fun key outside => ?_⟩
    · rw [reads reader member]
      exact ends.written reader (List.mem_cons_of_mem _ member)
    · by_cases same : key = (task item).write
      · subst same
        rw [Function.update_self]
        exact Except.ok.inj ((ends.written item List.mem_cons_self).symm.trans made)
      · rw [Function.update_of_ne same]
        refine ends.frame key ?_
        rintro ⟨writer, member, equal⟩
        rcases List.mem_cons.mp member with rfl | later
        · exact same equal.symm
        · exact outside ⟨writer, later, equal⟩
  · intro ends
    refine ⟨fun reader member => ?_, fun key outside => ?_⟩
    · rcases List.mem_cons.mp member with rfl | later
      · have kept : ¬Writes task level (task reader).write := fun ⟨writer, found, same⟩ => differ writer found same.symm
        rw [made, ends.frame _ kept, Function.update_self]
      · rw [← reads reader later]
        exact ends.written reader later
    · have beyond : ¬Writes task level key := fun ⟨writer, found, same⟩ =>
        outside ⟨writer, List.mem_cons_of_mem _ found, same⟩
      rw [ends.frame key beyond, Function.update_of_ne fun same => outside ⟨item, List.mem_cons_self, same.symm⟩]

/-- Items of distinct keys can all be written. -/
theorem exists_ends (distinct : Distinct task level) (each : ∀ item ∈ level, ∃ result, value task before item = .ok result) :
    ∃ after, Ends task level before after := by
  classical
  induction level with
  | nil => exact ⟨before, nofun, fun _ _ => rfl⟩
  | cons item level ih =>
    obtain ⟨apart, distinct⟩ := List.pairwise_cons.mp distinct
    obtain ⟨result, made⟩ := each item List.mem_cons_self
    obtain ⟨rest, ends⟩ := ih distinct fun other member => each other (List.mem_cons_of_mem _ member)
    refine ⟨fun key => if key = (task item).write then result else rest key, ?_, fun key outside => ?_⟩
    · intro other member
      rcases List.mem_cons.mp member with rfl | later
      · rw [if_pos rfl]
        exact made
      · rw [if_neg (apart other later).symm]
        exact ends.written other later
    · have different : key ≠ (task item).write := fun same => outside ⟨item, List.mem_cons_self, same.symm⟩
      rw [if_neg different]
      refine ends.frame key fun written => outside ?_
      obtain ⟨other, member, same⟩ := written
      exact ⟨other, List.mem_cons_of_mem _ member, same⟩

end Level

section Runs
variable {levels : List (List α)} {base before after : κ → ν}

theorem Runs.frame (runs : Runs task levels before after) {key : κ} (outside : ¬Writes task levels.flatten key) :
    after key = before key := by
  induction levels generalizing before with
  | nil => rw [show after = before from runs]
  | cons level later ih =>
    obtain ⟨middle, ends, rest⟩ := runs
    obtain ⟨here, beyond⟩ := not_writes_append.mp outside
    rw [ih rest beyond, ends.frame key here]

/-- What a run leaves is a fixed point. -/
theorem solves_of_runs (legal : Legal task levels) (runs : Runs task levels before after) :
    Solves task levels.flatten before after := by
  induction levels generalizing before with
  | nil =>
    cases runs
    exact ⟨nofun, fun _ _ => rfl⟩
  | cons level later ih =>
    obtain ⟨apart, once, _, legal⟩ := legal
    obtain ⟨middle, ends, rest⟩ := runs
    have solved := ih legal rest
    refine ⟨fun item member => ?_, fun key outside => ?_⟩
    · rcases List.mem_append.mp member with here | beyond
      · -- neither what the item reads nor what it writes changes any more
        have reads : value task after item = value task before item := value_congr fun key read => by
          obtain ⟨inside, beyond⟩ := not_writes_append.mp (apart item here key read)
          rw [rest.frame beyond, ends.frame key inside]
        rw [reads, ends.written item here, rest.frame (once item here)]
      · exact solved.written item beyond
    · obtain ⟨here, beyond⟩ := not_writes_append.mp outside
      rw [solved.frame key beyond, ends.frame key here]

/-- A fixed point is reached from every store that holds what nobody writes. -/
theorem runs_of_solves (legal : Legal task levels) (solves : Solves task levels.flatten base after)
    (agree : ∀ key, ¬Writes task levels.flatten key → before key = after key) : Runs task levels before after := by
  classical
  induction levels generalizing base before with
  | nil => exact funext fun key => (agree key nofun).symm
  | cons level later ih =>
    obtain ⟨apart, once, _, legal⟩ := legal
    let middle : κ → ν := fun key => if Writes task level key then after key else before key
    refine ⟨middle, ⟨fun item member => ?_, fun key outside => if_neg outside⟩, ?_⟩
    · have reads : value task before item = value task after item := value_congr fun key read =>
        agree key (apart item member key read)
      rw [reads, solves.written item (List.mem_append_left _ member)]
      exact congrArg Except.ok (if_pos (writes_of_mem member)).symm
    · have agreeMiddle : ∀ key, ¬Writes task later.flatten key → middle key = after key := by
        intro key beyond
        by_cases here : Writes task level key
        · exact if_pos here
        · exact (if_neg here).trans (agree key (not_writes_append.mpr ⟨here, beyond⟩))
      have solvesLater : Solves task later.flatten middle after :=
        ⟨fun item member => solves.written item (List.mem_append_right _ member),
          fun key beyond => (agreeMiddle key beyond).symm⟩
      exact ih legal solvesLater agreeMiddle

/-- Where a run ends is settled by what the store holds under the keys nobody writes. -/
theorem Runs.unique {start other : κ → ν} (legal : Legal task levels) (first : Runs task levels before after)
    (second : Runs task levels start other) (agree : ∀ key, ¬Writes task levels.flatten key → before key = start key) :
    after = other := by
  have again : Runs task levels start after :=
    runs_of_solves legal (solves_of_runs legal first) fun key outside =>
      (agree key outside).symm.trans (first.frame outside).symm
  clear first agree
  induction levels generalizing start with
  | nil => rw [show after = start from again, show other = start from second]
  | cons level later ih =>
    obtain ⟨middle, ends, rest⟩ := again
    obtain ⟨found, endsFound, restFound⟩ := second
    cases ends.unique endsFound
    exact ih legal.2.2.2 restFound rest

/-- What holds of the keys nobody writes, and passes from what an item reads to
what it writes, holds of every key. -/
theorem Legal.key_induction (legal : Legal task levels) (holds : κ → Prop)
    (given : ∀ key, ¬Writes task levels.flatten key → holds key)
    (each : ∀ item ∈ levels.flatten, (∀ key ∈ (task item).reads, holds key) → holds (task item).write) (key : κ) :
    holds key := by
  induction levels with
  | nil => exact given key nofun
  | cons level later ih =>
    obtain ⟨apart, _, _, legal⟩ := legal
    refine ih legal (fun key beyond => ?_) fun item member => each item (List.mem_append_right _ member)
    by_cases here : Writes task level key
    · obtain ⟨item, member, rfl⟩ := here
      exact each item (List.mem_append_left _ member) fun key read => given key (apart item member key read)
    · exact given key (not_writes_append.mpr ⟨here, beyond⟩)

/-- A run gets to its end if every item can be run on good values and makes one. -/
theorem exists_runs (legal : Legal task levels) (good : κ → ν → Prop)
    (given : ∀ key, ¬Writes task levels.flatten key → good key (before key))
    (each : ∀ item ∈ levels.flatten, ∀ store : κ → ν, (∀ key ∈ (task item).reads, good key (store key)) →
      ∃ result, value task store item = .ok result ∧
        good (task item).write result) : ∃ after, Runs task levels before after := by
  induction levels generalizing before with
  | nil => exact ⟨before, rfl⟩
  | cons level later ih =>
    obtain ⟨apart, _, distinct, legal⟩ := legal
    have here : ∀ item ∈ level, ∃ result, value task before item = .ok result ∧ good (task item).write result :=
      fun item member => each item (List.mem_append_left _ member) before fun key read =>
        given key (apart item member key read)
    obtain ⟨middle, ends⟩ := exists_ends distinct fun item member => (here item member).imp fun _ => And.left
    have next : ∀ key, ¬Writes task later.flatten key → good key (middle key) := by
      intro key beyond
      by_cases written : Writes task level key
      · obtain ⟨item, member, rfl⟩ := written
        obtain ⟨result, made, fine⟩ := here item member
        cases made.symm.trans (ends.written item member)
        exact fine
      · rw [ends.frame key written]
        exact given key (not_writes_append.mpr ⟨written, beyond⟩)
    obtain ⟨after, runs⟩ := ih legal next fun item member => each item (List.mem_append_right _ member)
    exact ⟨after, middle, ends, runs⟩

end Runs

section Throughout
variable {holds : α → List ν → Prop} {levels : List (List α)} {before start : κ → ν}

/-- What nobody writes settles what each item reads. -/
theorem Throughout.congr (legal : Legal task levels) (throughout : Throughout task holds levels before)
    (agree : ∀ key, ¬Writes task levels.flatten key → before key = start key) : Throughout task holds levels start := by
  classical
  induction levels generalizing before start with
  | nil => trivial
  | cons level later ih =>
    obtain ⟨apart, once, distinct, legal⟩ := legal
    have reads : ∀ item ∈ level, ∀ key ∈ (task item).reads, before key = start key :=
      fun item member key read => agree key (apart item member key read)
    refine ⟨fun item member => ?_, fun after ends => ?_⟩
    · rw [← List.map_congr_left (reads item member)]
      exact throughout.1 item member
    · obtain ⟨reached, same⟩ : ∃ reached, Ends task level before reached := by
        refine exists_ends distinct fun item member => ⟨after (task item).write, ?_⟩
        rw [value_congr (reads item member)]
        exact ends.written item member
      refine ih legal (throughout.2 reached same) fun key beyond => ?_
      by_cases here : Writes task level key
      · obtain ⟨item, member, rfl⟩ := here
        have both := (same.written item member).symm.trans (value_congr (reads item member)) |>.trans
          (ends.written item member)
        exact Except.ok.inj both
      · rw [same.frame key here, ends.frame key here]
        exact agree key (not_writes_append.mpr ⟨here, beyond⟩)

end Throughout

section Legal
variable {order : List α}

theorem mem_singletons {item : α} : item ∈ (order.map fun item => [item]).flatten ↔ item ∈ order := by
  simp

theorem mem_ranked {rank : α → Nat} {count : Nat} (below : ∀ item ∈ order, rank item < count) {item : α} :
    item ∈ ((List.range count).map fun current => order.filter fun item => rank item = current).flatten ↔ item ∈ order := by
  simp only [List.mem_flatten, List.mem_map, List.mem_range, exists_exists_and_eq_and, List.mem_filter, decide_eq_true_eq]
  exact ⟨fun ⟨_, _, member, _⟩ => member, fun member => ⟨rank item, below item member, member, rfl⟩⟩

/-- Cutting a list by a rank loses and repeats nothing. -/
theorem ranked_perm {rank : α → Nat} {count : Nat} (distinct : order.Nodup) (below : ∀ item ∈ order, rank item < count) :
    ((List.range count).map fun current => order.filter fun item => rank item = current).flatten.Perm order := by
  refine (List.perm_ext_iff_of_nodup ?_ distinct).mpr fun item => mem_ranked below
  rw [List.nodup_flatten]
  constructor
  · intro level member
    obtain ⟨current, _, rfl⟩ := List.mem_map.mp member
    exact distinct.filter _
  · refine List.pairwise_map.mpr (List.pairwise_lt_range.imp fun less item here there => ?_)
    have first := of_decide_eq_true (List.mem_filter.mp here).2
    have second := of_decide_eq_true (List.mem_filter.mp there).2
    omega

theorem Solves.of_mem {items others : List α} {base store : κ → ν} (solves : Solves task items base store)
    (same : ∀ item, item ∈ items ↔ item ∈ others) : Solves task others base store where
  written item member := solves.written item ((same item).mpr member)
  frame key outside := solves.frame key fun ⟨item, member, equal⟩ => outside ⟨item, (same item).mp member, equal⟩

/-- A level for every item. -/
theorem legal_singletons (selfless : ∀ item ∈ order, (task item).write ∉ (task item).reads)
    (earlier : order.Pairwise fun first second => (task second).write ∉ (task first).reads)
    (distinct : Distinct task order) :
    Legal task (order.map fun item => [item]) := by
  induction order with
  | nil => trivial
  | cons item order ih =>
    obtain ⟨apart, earlier⟩ := List.pairwise_cons.mp earlier
    obtain ⟨differ, distinct⟩ := List.pairwise_cons.mp distinct
    refine ⟨?_, ?_, List.pairwise_singleton _ _,
      ih (fun other member => selfless other (List.mem_cons_of_mem _ member)) earlier distinct⟩
    · intro reader member key read
      rw [List.mem_singleton.mp member] at read
      rintro ⟨writer, found, rfl⟩
      rcases List.mem_cons.mp found with rfl | later
      · exact selfless writer List.mem_cons_self read
      · exact apart writer (mem_singletons.mp later) read
    · intro first member
      rw [List.mem_singleton.mp member]
      rintro ⟨writer, found, same⟩
      exact differ writer (mem_singletons.mp found) same.symm

/-- Levels by a number that is higher for a reader than for the writer. -/
theorem legal_ranked {rank : α → Nat} (count : Nat)
    (higher : ∀ reader ∈ order, ∀ writer ∈ order, (task writer).write ∈ (task reader).reads → rank writer < rank reader)
    (distinct : Distinct task order) :
    Legal task ((List.range count).map fun current => order.filter fun item => rank item = current) := by
  have ranked : ∀ {lo n : Nat} {item : α},
      item ∈ ((List.range' lo n).map fun current => order.filter fun item => rank item = current).flatten →
        item ∈ order ∧ lo ≤ rank item := by
    intro lo n item member
    obtain ⟨level, made, found⟩ := List.mem_flatten.mp member
    obtain ⟨current, inside, rfl⟩ := List.mem_map.mp made
    obtain ⟨listed, same⟩ := List.mem_filter.mp found
    have bounds := List.mem_range'_1.mp inside
    exact ⟨listed, by rw [of_decide_eq_true same]; exact bounds.1⟩
  have walk : ∀ n lo, Legal task ((List.range' lo n).map fun current => order.filter fun item => rank item = current) := by
    intro n
    induction n with
    | zero => exact fun _ => trivial
    | succ n ih =>
      intro lo
      have level : ∀ item, item ∈ order.filter (fun item => rank item = lo) → item ∈ order ∧ rank item = lo := by
        intro item member
        obtain ⟨listed, same⟩ := List.mem_filter.mp member
        exact ⟨listed, of_decide_eq_true same⟩
      refine ⟨?_, ?_, distinct.filter _, ih (lo + 1)⟩
      · intro reader member key read
        obtain ⟨listed, here⟩ := level reader member
        rintro ⟨writer, found, rfl⟩
        rcases List.mem_append.mp found with same | later
        · obtain ⟨known, equal⟩ := level writer same
          have less := higher reader listed writer known read
          omega
        · obtain ⟨known, above⟩ := ranked later
          have less := higher reader listed writer known read
          omega
      · intro item member
        obtain ⟨listed, here⟩ := level item member
        rintro ⟨writer, found, same⟩
        obtain ⟨known, above⟩ := ranked found
        have different : writer ≠ item := by
          rintro rfl
          omega
        exact distinct.differ known listed different same
  rw [List.range_eq_range']
  exact walk count 0

end Legal
end Dataflow
end FromScratch.Lib
