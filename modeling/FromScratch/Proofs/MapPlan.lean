import FromScratch.MapReduce.Mapper
import FromScratch.Proofs.PublishRules

/-! What a map task writes, as a function of its input alone: where its buffer
overflows, the runs that are cut there, and the file each partition gets. An
attempt follows this plan whatever the others do, or fails. -/

namespace FromScratch.Proofs.MapPlan
open FromScratch.MapReduce Mapper Lib Program AttemptRules PublishRules

/-- The inputs on a disk. -/
def inputs (disk : FiniteMap Path GoString) (path : GoString) : Option GoString := disk.lookup (.input path)

/-- The runs cut so far, and the records still buffered. -/
structure Cut where
  runs : List (List Record) := []
  buffer : List Record := []

def bufferBytes (buffer : List Record) : Nat := (buffer.map Record.size).sum

def absorb (limit : Int) (c : Cut) (emitted : List Record) : Cut :=
  if limit ≤ bufferBytes (c.buffer ++ emitted) ∧ c.buffer ++ emitted ≠ [] then
    { runs := c.runs ++ [c.buffer ++ emitted] }
  else { c with buffer := c.buffer ++ emitted }

def cut (limit : Int) (emissions : List (List Record)) : Cut := emissions.foldl (absorb limit) {}

/-- The merge of whole files, as the program writes it. -/
def mergeContents (files : List GoString) : Except Err GoString :=
  match Merger.drain { sources := files.map fun bytes => Source.ofStream { bytes := bytes } } with
  | (records, none) => .ok (Record.encodeAll records)
  | (_, some e) => .error e

section Plan
variable (opts : Options) (contents : GoString → Option GoString)

def scanned (path : GoString) : List GoString × Option Err := Scanner.scan { bytes := (contents path).getD [] }

def emissionsOf (path : GoString) : List (List Record) := (scanned contents path).1.map (opts.mapper path)

/-- What each line of the input makes the mapper emit. -/
def emissions : List (List Record) := opts.inputFiles.flatMap (emissionsOf opts contents)

def planned : Cut := cut opts.spillBytes (emissions opts contents)

/-- The runs that are spilled. What is left in the buffer makes the last one,
unless nothing has been spilled at all. -/
def runs : List (List Record) :=
  let plan := planned opts contents
  if plan.runs = [] ∨ plan.buffer = [] then plan.runs else plan.runs ++ [plan.buffer]

def spillContent (n p : Nat) : GoString := Record.encodeAll (outputOf opts ((runs opts contents).getD n []) p)

def partContent (p : Nat) : Except Err GoString :=
  if runs opts contents = [] then .ok (Record.encodeAll (outputOf opts (planned opts contents).buffer p))
  else mergeContents ((runs opts contents).map fun run => Record.encodeAll (outputOf opts run p))

/-- The file is there, and no line of it is too long. -/
def Readable (path : GoString) : Prop := ∃ bytes, contents path = some bytes ∧ (Scanner.scan { bytes := bytes }).2 = none

/-- Every input line, and every line the task writes for itself to merge, can be read. -/
structure Feasible : Prop where
  readable : ∀ path ∈ opts.inputFiles, Readable contents path
  mergeable : ∀ p < opts.numReducers, ∃ content, partContent opts contents p = .ok content

/-- What the attempt itself writes under each name of a run. -/
def ownRun : Name → GoString
  | .spill _ n p => spillContent opts contents n p
  | _ => []

end Plan

section Options
variable (opts : Options)

/-- The options `Run` goes by. -/
def effective : Options := if opts.spillBytes < 1024 then { opts with spillBytes := 1024 } else opts

@[simp] theorem effective_taskID : (effective opts).taskID = opts.taskID := by
  unfold effective
  split <;> rfl

@[simp] theorem effective_numReducers : (effective opts).numReducers = opts.numReducers := by
  unfold effective
  split <;> rfl

@[simp] theorem effective_inputFiles : (effective opts).inputFiles = opts.inputFiles := by
  unfold effective
  split <;> rfl

@[simp] theorem effective_mapper : (effective opts).mapper = opts.mapper := by
  unfold effective
  split <;> rfl

@[simp] theorem effective_combiner : (effective opts).combiner = opts.combiner := by
  unfold effective
  split <;> rfl

end Options

theorem cut_append (limit : Int) (first second : List (List Record)) :
    cut limit (first ++ second) = second.foldl (absorb limit) (cut limit first) := by
  simp [cut]

theorem absorb_runs (limit : Int) (c : Cut) (emitted : List Record) : c.runs <+: (absorb limit c emitted).runs := by
  unfold absorb
  split
  · exact List.prefix_append ..
  · exact List.prefix_rfl

theorem cut_runs (limit : Int) (first second : List (List Record)) :
    (cut limit first).runs <+: (cut limit (first ++ second)).runs := by
  rw [cut_append]
  generalize cut limit first = c
  induction second generalizing c with
  | nil => exact List.prefix_rfl
  | cons emitted second ih => exact (absorb_runs limit c emitted).trans (ih _)

theorem runs_initial (opts : Options) (contents : GoString → Option GoString) :
    (planned opts contents).runs <+: runs opts contents := by
  unfold runs
  simp only
  split
  · exact List.prefix_rfl
  · exact List.prefix_append ..

theorem runs_getD {opts : Options} {contents : GoString → Option GoString} {runs' : List (List Record)} {n : Nat}
    (early : runs' <+: runs opts contents) (inside : n < runs'.length) :
    (runs opts contents).getD n [] = runs'.getD n [] := by
  obtain ⟨rest, same⟩ := early
  rw [← same, List.getD_eq_getElem?_getD, List.getD_eq_getElem?_getD, List.getElem?_append_left inside]

/-- The runner once it has consumed these lines' emissions. -/
def runnerAt (opts : Options) (consumed : List (List Record)) : Runner :=
  let c := cut opts.spillBytes consumed
  { buffer := c.buffer, bytes := bufferBytes c.buffer, spills := c.runs.length,
    spilled := (List.range c.runs.length).map fun n => (List.range opts.numReducers).map fun p => .spill opts.taskID n p }

/-- The runs of task `m` up to number `k`. -/
def RunsUpTo (opts : Options) (k : Nat) (name : Name) : Prop :=
  ∃ n < k, ∃ p < opts.numReducers, name = .spill opts.taskID n p

theorem cut_line (limit : Int) (consumed : List (List Record)) (emitted : List Record) :
    cut limit (consumed ++ [emitted]) = absorb limit (cut limit consumed) emitted := by
  rw [cut_append]
  rfl

theorem emit_bytes (opts : Options) (consumed : List (List Record)) (emitted : List Record) :
    (emit (runnerAt opts consumed) emitted).bytes = bufferBytes ((cut opts.spillBytes consumed).buffer ++ emitted) := by
  simp [emit, runnerAt, bufferBytes]

theorem runnerAt_full {opts : Options} {consumed : List (List Record)} {emitted : List Record}
    (full : opts.spillBytes ≤ (emit (runnerAt opts consumed) emitted).bytes)
    (filled : (emit (runnerAt opts consumed) emitted).buffer ≠ []) :
    runnerAt opts (consumed ++ [emitted]) =
      { spills := (runnerAt opts consumed).spills + 1,
        spilled := (runnerAt opts consumed).spilled ++
          [(List.range opts.numReducers).map fun p => .spill opts.taskID (runnerAt opts consumed).spills p] } := by
  rw [emit_bytes] at full
  have step : cut opts.spillBytes (consumed ++ [emitted]) = _ := (cut_line ..).trans (if_pos ⟨full, filled⟩)
  unfold runnerAt
  rw [step]
  simp [List.range_succ, bufferBytes]

theorem runnerAt_roomy {opts : Options} {consumed : List (List Record)} {emitted : List Record}
    (roomy : ¬ (opts.spillBytes ≤ (emit (runnerAt opts consumed) emitted).bytes ∧
      (emit (runnerAt opts consumed) emitted).buffer ≠ [])) :
    runnerAt opts (consumed ++ [emitted]) = emit (runnerAt opts consumed) emitted := by
  rw [emit_bytes] at roomy
  have step : cut opts.spillBytes (consumed ++ [emitted]) = _ := (cut_line ..).trans (if_neg roomy)
  unfold runnerAt
  rw [step]
  simp [emit, bufferBytes]

/-- The runs up to number `k`, and run `k` itself for the partitions listed. -/
def RunsAnd (opts : Options) (k : Nat) (partitions : List Nat) (name : Name) : Prop :=
  RunsUpTo opts k name ∨ ∃ p ∈ partitions, name = .spill opts.taskID k p

theorem runsAnd_all {opts : Options} {k : Nat} {name : Name} (runs : RunsUpTo opts (k + 1) name) :
    RunsAnd opts k (List.range opts.numReducers) name := by
  obtain ⟨n, below, p, inside, rfl⟩ := runs
  rcases Nat.lt_succ_iff_lt_or_eq.mp below with below | rfl
  · exact Or.inl ⟨n, below, p, inside, rfl⟩
  · exact Or.inr ⟨p, List.mem_range.mpr inside, rfl⟩

section Spills
variable {terms : Terms} {opts : Options} {contents : GoString → Option GoString} {own : Name → GoString} {me : Nat}
  {excuse : Prop} (weak : terms.fallible → excuse)

include weak in
theorem countCombined_meets {held : Holding} (records : List Record) :
    Triple (rules terms me) (Knows terms contents own me held) (countCombined opts.combiner records)
      (Ends (fun _ => excuse) fun _ => Knows terms contents own me held) := by
  unfold countCombined
  split
  · exact .pure knows_stable fun _ knows => knows
  · exact .bind (count_meets weak _ _) fun _ => count_meets weak _ _

/-- A spill adds one run, written partition by partition. -/
theorem spill_meets (weak : terms.fallible → excuse) (r : Runner) (full : r.buffer ≠ [])
    (writes : ∀ p < opts.numReducers, own (.spill opts.taskID r.spills p) = Record.encodeAll (outputOf opts r.buffer p))
    (good : ∀ p < opts.numReducers, terms.good (.spill opts.taskID r.spills p) (own (.spill opts.taskID r.spills p))) :
    Triple (rules terms me) (Knows terms contents own me { spilled := RunsUpTo opts r.spills }) (spill opts r)
      (Ends (fun _ => excuse) fun after w => after =
          { spills := r.spills + 1,
            spilled := r.spilled ++ [(List.range opts.numReducers).map fun p => .spill opts.taskID r.spills p] } ∧
        Knows terms contents own me { spilled := RunsUpTo opts (r.spills + 1) } w) := by
  unfold spill
  rw [if_neg full]
  have loop : Triple (rules terms me) (Knows terms contents own me { spilled := RunsUpTo opts r.spills })
      (Program.each (fun p => do
        countCombined opts.combiner (partitionBuffer opts.numReducers (sortBuffer r.buffer) p)
        let path := Storage.spillPath opts.taskID r.spills p
        writeRecords path (outputOf opts r.buffer p)
        pure path) (List.range opts.numReducers))
      (Ends (fun _ => excuse) fun paths w =>
        paths = (List.range opts.numReducers).map (fun p => .spill opts.taskID r.spills p) ∧
          Knows terms contents own me { spilled := RunsUpTo opts (r.spills + 1) } w) := by
    intro w knows
    refine Triple.post_of (Triple.each (fun p => .spill opts.taskID r.spills p)
      (fun before => Knows terms contents own me { spilled := RunsAnd opts r.spills before })
      (fun before => knows_stable) fun before p todo cut => ?_) (fun paths w ends => ?_) w
        (knows.fewer (by simp [RunsAnd]) nofun)
    · have inside : p < opts.numReducers := by
        rw [← List.mem_range, cut]
        simp
      have spill := isSpill_spill opts.taskID r.spills p
      refine .bind (countCombined_meets weak _) fun _ => ?_
      have settled := good p inside
      rw [writes p inside] at settled
      refine .bind (writeRecords_meets weak rfl rfl settled fun _ => writes p inside) fun _ => ?_
      refine .pure knows_stable fun w knows => ⟨rfl, ?_⟩
      rw [Holding.publish, Storage.spillPath, if_pos spill] at knows
      refine knows.fewer (fun name member => ?_) nofun
      simpa [RunsAnd, or_assoc] using member
    · exact ⟨ends.1, ends.2.fewer (fun name => runsAnd_all) nofun⟩
  refine .bind loop fun paths => .given ?_
  rintro rfl
  refine .bind (count_meets weak _ _) fun _ => ?_
  exact .pure knows_stable fun _ knows => ⟨rfl, knows⟩

end Spills

end FromScratch.Proofs.MapPlan
