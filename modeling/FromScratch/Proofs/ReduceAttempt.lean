import FromScratch.MapReduce.Reducer
import FromScratch.Proofs.MergeOrder
import FromScratch.Proofs.PublishRules

/-! What a reduce task computes, as a function of the files it merges, and that
an attempt computes it or fails. -/

namespace FromScratch.Proofs.ReduceAttempt
open FromScratch.MapReduce Reducer Lib Program AttemptRules WriterRules PublishRules MergeOrder

/-- The calls of `Reduce` that are due, and the group that is still open. -/
structure Groups where
  closed : Calls := []
  group : Option (GoString × List GoString) := none

def gather (g : Groups) (record : Record) : Groups :=
  match g.group with
  | none => { g with group := some (record.key, [record.value]) }
  | some (key, values) =>
    if record.key ≠ key then { closed := g.closed ++ [(key, values)], group := some (record.key, [record.value]) }
    else { g with group := some (key, values ++ [record.value]) }

/-- Runs of equal keys, with their values. -/
def groups (records : List Record) : Calls :=
  let g := records.foldl gather {}
  g.closed ++ g.group.toList

def answer (reducer : Reducer) (call : GoString × List GoString) : List Record :=
  (reducer call.1 call.2).map fun value => { key := call.1, value := value }

def answers (reducer : Reducer) (calls : Calls) : List Record := calls.flatMap (answer reducer)

section Plan
variable (opts : Options) (parts : Nat → GoString)

/-- The merge of the files the task reads. -/
def merged : List Record × Option Err :=
  Merger.drain { sources := (List.range opts.numMappers).map fun m => Source.ofStream { bytes := parts m } }

def reduceContent : Except Err GoString :=
  match merged opts parts with
  | (records, none) => .ok (Record.encodeAll (answers opts.reducer (groups records)))
  | (_, some e) => .error e

end Plan

theorem answers_concat (reducer : Reducer) (calls : Calls) (call : GoString × List GoString) :
    Record.encodeAll (answers reducer (calls ++ [call])) =
      Record.encodeAll (answers reducer calls) ++ Record.encodeAll (answer reducer call) := by
  simp [Record.encodeAll, answers]

section Output
variable {rules : Rules World Request Reply} {excuse : Prop} {temp : Path} {taken : GoString → World → Prop}

/-- The loop has written the answers to the calls it has made. -/
def Collected (excuse : Prop) (temp : Path) (taken : GoString → World → Prop) (reducer : Reducer) (g : Groups) (l : Loop)
    (w : World) : Prop :=
  (l.group = g.group ∧ l.calls = g.closed) ∧ Given excuse temp taken (Record.encodeAll (answers reducer g.closed)) l.writer w

variable {opts : Options} (sink : Sink rules excuse temp taken)
include sink

theorem emitAll_given {total : GoString} (writer : Writer) (key : GoString) (values : List GoString) :
    Triple rules (Given excuse temp taken total writer) (Program.fold (emit key) writer values)
      (Ends (fun _ => excuse)
        (Given excuse temp taken (total ++ Record.encodeAll (values.map fun value => { key := key, value := value })))) := by
  refine fold_given sink (fun value => { key := key, value := value }) (fun total writer value => ?_) writer values
  refine .bind (record_given sink writer _) fun writer => .bind (count_given sink writer _ _) fun _ => ?_
  exact .pure (Given.stable sink) fun _ given => given

theorem flush_collected (g : Groups) (l : Loop) :
    Triple rules (Collected excuse temp taken opts.reducer g l) (flush opts l)
      (Ends (fun _ => excuse) fun after w => after.calls = g.closed ++ g.group.toList ∧
        Given excuse temp taken (Record.encodeAll (answers opts.reducer (g.closed ++ g.group.toList))) after.writer w) := by
  refine .given fun ⟨group, calls⟩ => ?_
  unfold flush
  rw [group]
  cases g.group with
  | none =>
    refine .pure (Given.stable sink) fun w given => ⟨by simpa using calls, ?_⟩
    simpa using given
  | some group =>
    obtain ⟨key, values⟩ := group
    refine .bind (emitAll_given sink l.writer key _) fun writer => ?_
    refine .bind (count_given sink writer _ _) fun _ => .bind (count_given sink writer _ _) fun _ => ?_
    refine .pure (Given.stable sink) fun w given => ⟨by simp [calls], ?_⟩
    rw [Option.toList_some, answers_concat]
    exact given

theorem take_collected (g : Groups) (l : Loop) (record : Record) :
    Triple rules (Collected excuse temp taken opts.reducer g l) (take opts l record)
      (Ends (fun _ => excuse) (Collected excuse temp taken opts.reducer (gather g record))) := by
  rintro w ⟨⟨group, calls⟩, given⟩
  unfold take gather
  rw [group]
  cases opened : g.group with
  | none => exact Triple.pure (Given.stable sink) (fun w given => ⟨⟨rfl, calls⟩, given⟩) w given
  | some group' =>
    obtain ⟨key, values⟩ := group'
    simp only
    split
    next =>
      refine Triple.bind (flush_collected sink g l) (fun after => .given fun called => ?_) w ⟨⟨group, calls⟩, given⟩
      rw [opened] at called ⊢
      exact .pure (Given.stable sink) fun w given => ⟨⟨rfl, called⟩, given⟩
    next => exact Triple.pure (Given.stable sink) (fun w given => ⟨⟨rfl, calls⟩, given⟩) w given

theorem takeAll_collected (l : Loop) (records : List Record) :
    Triple rules (Collected excuse temp taken opts.reducer {} l) (Program.fold (take opts) l records)
      (Ends (fun _ => excuse) (Collected excuse temp taken opts.reducer (records.foldl gather {}))) := by
  intro w collected
  refine Triple.fold (fun before => Collected excuse temp taken opts.reducer (before.foldl gather {}))
    (fun _ _ => (Given.stable sink).and) (fun before record todo l _ => ?_) w collected
  simp only [List.foldl_append, List.foldl_cons, List.foldl_nil]
  exact take_collected sink _ l record

/-- What the callback of a reduce task leaves in its file. -/
theorem callback_collected (opts : Options) (records : List Record) (err : Option Err)
    (unmerged : ∀ e, err = some e → excuse) :
    Triple rules (taken [])
      (do
        let l ← Program.fold (take opts) { writer := { file := temp } } records
        match err with
        | some e => .fail e
        | none =>
          let l ← flush opts l
          l.writer.flush
          pure l.calls)
      (Ends (fun _ => excuse) fun calls w => (err = none ∧ calls = groups records) ∧
        taken (Record.encodeAll (answers opts.reducer (groups records))) w) := by
  intro w start
  refine Triple.bind (takeAll_collected sink { writer := { file := temp } } records) (fun l => ?_) w
    ⟨⟨rfl, rfl⟩, rfl, Or.inl ⟨rfl, [], rfl, start⟩⟩
  cases err with
  | some e => exact .fail fun _ _ => unmerged e rfl
  | none =>
    refine .bind (flush_collected sink _ l) fun l => .given fun called => ?_
    refine .bind (flush_given sink l.writer) fun _ => ?_
    exact .pure (sink.stable _) fun w holds => ⟨⟨rfl, called⟩, holds⟩

end Output

/-- The files an attempt of the task merges. -/
def Inputs (opts : Options) (name : Name) : Prop := ∃ m < opts.numMappers, name = .part m opts.taskID

section Attempt
variable {terms : Terms} {contents : GoString → Option GoString} {own : Name → GoString} {me : Nat} {held : Holding}
  {excuse : Prop} {opts : Options} {parts : Nat → GoString} (weak : terms.fallible → excuse)
include weak

theorem openSources_meets (same : ∀ m < opts.numMappers, ∀ content, terms.good (.part m opts.taskID) content → content =
    parts m) :
    Triple (rules terms me) (Knows terms contents own me { published := Inputs opts }) (openSources opts)
      (Ends (fun _ => excuse) fun streams w =>
        List.Forall₂ (fun m => Partly terms.fallible (parts m)) (List.range opts.numMappers) streams ∧
        Knows terms contents own me { published := Inputs opts } w) := by
  intro w knows
  refine Triple.bind (Triple.collect (fun before found w => (∃ streams, found = streams.map some ∧
    List.Forall₂ (fun m => Partly terms.fallible (parts m)) before streams) ∧
      Knows terms contents own me { published := Inputs opts } w) (fun _ _ => knows_stable.and)
    fun before m todo found cut => .given ?_) (fun found => .given ?_) w ⟨⟨[], rfl, .nil⟩, knows⟩
  · rintro ⟨streams, rfl, read⟩
    have inside : m < opts.numMappers := by
      rw [← List.mem_range, cut]
      simp
    have opening : Triple (rules terms me) (Knows terms contents own me { published := Inputs opts })
        (call (.openFile (.file (.part m opts.taskID)))) _ :=
      openPublished_meets rfl rfl (fun _ => id) ⟨m, inside, rfl⟩
    refine .bind opening.outcome fun reply => ?_
    cases reply with
    | error e =>
      rintro w ⟨failing, rfl⟩
      exact fun _ _ => weak failing
    | ok stream =>
      refine .given ?_
      rintro ⟨content, good, partly⟩
      rw [same m inside content good] at partly
      refine .pure knows_stable fun w knows => ⟨⟨streams ++ [stream], by simp, ?_⟩, knows⟩
      exact List.rel_append read (.cons partly .nil)
  · rintro ⟨streams, rfl, read⟩
    exact .pure knows_stable fun _ knows => ⟨by simpa [List.filterMap_map] using read, knows⟩

/-- An attempt makes the calls of the plan and publishes their answers. -/
theorem run_meets (mappers : 1 ≤ opts.numMappers)
    (same : ∀ m < opts.numMappers, ∀ content, terms.good (.part m opts.taskID) content → content = parts m)
    (good : ∀ content, reduceContent opts parts = .ok content → terms.good (.out opts.taskID) content)
    (unmergeable : ∀ e, reduceContent opts parts = .error e → excuse) :
    Triple (rules terms me) (Knows terms contents own me { published := Inputs opts }) (Reducer.run opts)
      (Ends (fun _ => excuse) fun calls w => ((merged opts parts).2 = none ∧ calls = groups (merged opts parts).1) ∧
        Knows terms contents own me { published := fun name => Inputs opts name ∨ name = .out opts.taskID } w) := by
  unfold Reducer.run
  rw [if_neg (by omega)]
  refine .bind (openSources_meets weak same) fun streams => .given fun read => ?_
  generalize drained : Merger.drain { sources := streams.map Source.ofStream } = merging
  obtain ⟨records, err⟩ := merging
  have whole (same : streams = (List.range opts.numMappers).map fun m => { bytes := parts m }) :
      merged opts parts = (records, err) := by
    rw [merged, ← drained, same, List.map_map]
    rfl
  -- Where the reading of a file broke off, the merge has ended in an error.
  have planned (clean : err = none) : merged opts parts = (records, none) := by
    rcases partly_all read with same | ⟨_, stream, member, broken⟩
    · rw [whole same, clean]
    · exact absurd (drain_readErr ((congrArg Prod.snd drained).trans clean) member) broken
  have unmerged : ∀ e, err = some e → excuse := by
    rintro e rfl
    rcases partly_all read with same | ⟨failing, _⟩
    · exact unmergeable e (by rw [reduceContent, whole same])
    · exact weak failing
  have visible := isSpill_out opts.taskID
  refine .post_of (writeAtomic_meets weak (fun calls content => err = none ∧ calls = groups records ∧
      content = Record.encodeAll (answers opts.reducer (groups records))) rfl rfl (fun serial w knows => ?_)
    (fun calls content fact => ?_) fun _ _ _ spill => ?_) fun calls w ends => ?_
  · refine Triple.post_of (callback_collected (knows_sink weak rfl (.temp (.out opts.taskID) me serial)) opts records err
      unmerged) (fun calls w ends => ?_) w knows
    obtain ⟨⟨clean, called⟩, knows⟩ := ends
    exact ⟨_, ⟨clean, called, rfl⟩, knows⟩
  · obtain ⟨clean, _, rfl⟩ := fact
    exact good _ (by rw [reduceContent, planned clean])
  · rw [Storage.outputPath, visible] at spill
    cases spill
  · obtain ⟨⟨content, clean, called, _⟩, knows⟩ := ends
    rw [Holding.publish, Storage.outputPath, if_neg (by simp)] at knows
    rw [planned clean]
    exact ⟨⟨rfl, called⟩, knows⟩

end Attempt

end FromScratch.Proofs.ReduceAttempt
