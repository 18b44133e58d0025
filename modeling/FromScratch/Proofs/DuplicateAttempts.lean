import FromScratch.Proofs.MapAttempt
import FromScratch.Proofs.MapOutput

/-! Attempts of one map task that run at the same time. They share their spill
files by name, so one may merge a run that another one cut, or miss a run that
another one took away. Attempts that spare each other's entries do neither. -/

namespace FromScratch.Proofs.DuplicateAttempts
open FromScratch.MapReduce Mapper Lib Program AttemptRules MapPlan MapAttempt MapOutput Codec

/-- Attempts of map tasks in one directory tree, one for each process. -/
def attempts (disk : FiniteMap Path GoString) (opts : Nat → Options) : Pool Nat World Request Reply Err Unit :=
  ⟨{ files := disk }, fun i => Mapper.run (opts i)⟩

/-- Every partition file holds the records the mapper emits for it, and no others. -/
def Intact (opts : Options) (disk : FiniteMap Path GoString) (w : World) : Prop :=
  ∀ p < opts.numReducers, ∃ out, w.files.lookup (.file (.part opts.taskID p)) = some (Record.encodeAll out) ∧
    out.Perm (routed opts (emitted opts.mapper (inputs disk) opts.inputFiles) p)

theorem knows_start {terms : Terms} {disk : FiniteMap Path GoString} {own : Name → GoString} {me : Nat} :
    Knows terms (inputs disk) own me {} { files := disk } :=
  ⟨fun _ => rfl, List.nodup_nil, nofun, nofun, nofun, nofun⟩

/-- Attempts under common terms end as promised, each for itself. -/
theorem attempts_safe {terms : Terms} {disk : FiniteMap Path GoString} {opts : Nat → Options} (excuse : Prop)
    (own : Nat → Name → GoString) {value : Nat → Unit → World → Prop}
    (meets : ∀ i, Triple (rules terms i) (Knows terms (inputs disk) (own i) i {}) (Mapper.run (opts i))
    (Ends (fun _ => excuse) (value i)))
    {last : Pool Nat World Request Reply Err Unit} (reached : Pool.Reaches (Serves terms) (attempts disk opts) last)
    (i : Nat) :
    (last.threads i).Safe (rules terms i) (Ends (fun _ => excuse) (value i)) last.state :=
  Pool.safe (rules_compatible terms) (fun i => meets i _ knows_start) reached i

section Corruption

def opens : Request → Option Name
  | .openFile (.file name) => some name
  | _ => none

/-- Whenever an attempt opens a file it has written itself, the file is still
what it wrote. -/
def OpensOwn (me : Nat) (w : World) (request : Request) : Prop :=
  ∀ name ∈ opens request, ∀ found ∈ w.files.lookup (.file name), ∀ own ∈ (w.notes me).wrote.lookup name, found = own

instance decidableOpensOwn (me : Nat) (w : World) (request : Request) : Decidable (OpensOwn me w request) :=
  inferInstanceAs (Decidable (∀ name ∈ opens request, ∀ found ∈ w.files.lookup (.file name),
    ∀ own ∈ (w.notes me).wrote.lookup name, found = own))

variable {opts : Options} {disk : FiniteMap Path GoString}

/-- A partition file may be published when it is intact; any run may be. -/
def contentTerms (opts : Options) (disk : FiniteMap Path GoString) : Terms where
  fallible := True
  good name content := ∀ p, name = .part opts.taskID p → ∃ out, content = Record.encodeAll out ∧
    out.Perm (routed opts (emitted opts.mapper (inputs disk) opts.inputFiles) p)
  allowed w me request := OpensOwn me w request
  careful _ _ _ _ _ _ := Or.inl trivial
  faithful _ _ name found own allowed lookup _ wrote _ := allowed name rfl found lookup own wrote

/-- In a run whose attempts only ever merge their own runs, an attempt that ends
well leaves the partition files intact, however large each one's buffer is. -/
theorem own_runs_merge_intact (plain : opts.combiner = none) (limits : Nat → Int)
    (text : ∀ r ∈ emitted opts.mapper (inputs disk) opts.inputFiles, GoString.ValidUtf8 r.key ∧ GoString.ValidUtf8 r.value)
    {last : Pool Nat World Request Reply Err Unit}
    (reached : Pool.Reaches (fun me w request reply w' => OpensOwn me w request ∧ w.Responds me request reply w')
      (attempts disk fun i => { opts with spillBytes := limits i }) last) (i : Nat)
    (ended : (last.threads i).result = some (.ok ())) : Intact opts disk last.state := by
  have served : Pool.Reaches (Serves (contentTerms opts disk))
    (attempts disk fun i => { opts with spillBytes := limits i }) last :=
    reached.mono fun i w request reply w' step => ⟨step.1, step.2.imp_right fun fault => ⟨trivial, .inl fault⟩⟩
  have safe := attempts_safe True (fun i => ownRun (effective { opts with spillBytes := limits i }) (inputs disk))
    (fun i => run_meets (fun _ => trivial) (fun _ => trivial) (fun n _ p _ q named => by cases named)
      (fun p _ content planned q named => ?_) fun _ => trivial) served i
  · obtain ⟨_, knows⟩ := safe.result ended
    intro p below
    obtain ⟨_, content, found, good⟩ := knows.published (.part opts.taskID p) ⟨p, List.mem_range.mpr below, rfl⟩
    obtain ⟨out, rfl, perm⟩ := good p rfl
    exact ⟨out, found, perm⟩
  · cases named
    obtain ⟨out, same, perm, _⟩ := published_routed { opts with spillBytes := limits i } plain
      (fun r member => restored_valid (text r member).1 (text r member).2) planned
    exact ⟨out, same, perm⟩

/-- A file of two lines, each emitted as a record of more than 1024 bytes. -/
def twoLines : FiniteMap Path GoString := AList.insert (Path.input [105, 110]) [49, 10, 50, 10] ∅

def longValues : Options where
  taskID := 0
  inputFiles := [[105, 110]]
  numReducers := 1
  spillBytes := 1024
  mapper _ line := [{ key := line, value := List.replicate 1100 97 }]

/-- The attempts of processes other than 0 run with a buffer twice as large. -/
def unequal : Pool Nat World Request Reply Err Unit :=
  attempts twoLines fun i => { longValues with spillBytes := if i = 0 then 1024 else 2048 }

/-- Process 0 has cut its two runs when process 1 puts its only run, of both
records, in the place of the first. -/
def mixing : List Nat :=
  List.replicate 3 1 ++ List.replicate 18 0 ++ List.replicate 9 1 ++ List.replicate 20 0

theorem duplicates_corrupt : ∃ last, Pool.Reaches
    (fun me w request reply w' => w.Performs me request reply w') unequal last ∧
    (last.threads 0).result = some (.ok ()) ∧ ¬ Intact longValues twoLines last.state := by
  refine ⟨unequal.advance (fun me w => w.perform me) mixing, ?_, by decide +kernel, fun intact => ?_⟩
  · exact Pool.advance_reaches (fun _ _ _ => true) (fun _ => True) (fun _ _ _ _ _ => ⟨rfl, trivial⟩) trivial
      (by decide +kernel)
  · obtain ⟨out, found, perm⟩ := intact 0 (by decide)
    have long : ((unequal.advance (fun me w => w.perform me) mixing).state.files.lookup
      (.file (.part 0 0))).map List.length =
        some 3309 := by decide +kernel
    have whole : ((routed longValues (emitted longValues.mapper
      (inputs twoLines) longValues.inputFiles) 0).flatMap Record.encode).length =
        2206 := by decide +kernel
    have same := (perm.flatMap_right Record.encode).length_eq
    rw [show (Path.file (.part longValues.taskID 0)) = Path.file (.part 0 0) from rfl] at found
    rw [found, Option.map_some, Record.encodeAll] at long
    have := Option.some.inj long
    omega

/-- Each process opens its runs before the other one replaces or removes them. -/
def takingTurns : List Nat :=
  List.replicate 2 1 ++ List.replicate 2 0 ++ List.replicate 12 1 ++ List.replicate 19 0 ++ List.replicate 7 1 ++
    List.replicate 8 0

theorem own_runs_merge_intact_takingTurns :
    Intact longValues twoLines (unequal.advance (fun me w => w.perform me) takingTurns).state := by
  refine own_runs_merge_intact rfl (fun i => if i = 0 then 1024 else 2048) ?_
    (Pool.advance_reaches (fun me w request => decide (OpensOwn me w request)) (fun _ => True)
      (fun _ _ _ _ own => ?_) trivial
      (by decide +kernel)) 0 (by decide +kernel)
  · have found : emitted longValues.mapper (inputs twoLines) longValues.inputFiles =
        [⟨[49], List.replicate 1100 97⟩, ⟨[50], List.replicate 1100 97⟩] := by decide +kernel
    rw [found]
    intro record member
    simp only [List.mem_cons, List.not_mem_nil, or_false] at member
    rcases member with rfl | rfl
    · exact ⟨⟨['1'], by decide⟩, ⟨List.replicate 1100 'a', by decide +kernel⟩⟩
    · exact ⟨⟨['2'], by decide⟩, ⟨List.replicate 1100 'a', by decide +kernel⟩⟩
  · exact ⟨⟨of_decide_eq_true own, Or.inl rfl⟩, trivial⟩

end Corruption

section Failure

/-- No entry is taken away that another attempt still counts on. -/
def Spares (me : Nat) (w : World) (request : Request) : Prop :=
  ∀ path ∈ takes request, ∀ other, other ≠ me → path ∉ (w.notes other).needs

variable {opts : Options} {disk : FiniteMap Path GoString}

/-- The one content an attempt may publish under each name. -/
def planContent (opts : Options) (contents : GoString → Option GoString) : Name → Except Err GoString
  | .part _ p => partContent opts contents p
  | .spill _ n p => .ok (spillContent opts contents n p)
  | .out _ => .error .io

def planTerms (opts : Options) (disk : FiniteMap Path GoString) : Terms where
  fallible := False
  good name content := planContent (effective opts) (inputs disk) name = .ok content
  allowed w me request := Spares me w request
  careful _ _ _ path spares taken := Or.inr (spares path taken)
  faithful _ _ _ _ _ _ _ found _ own := Except.ok.inj (found.symm.trans own)

/-- Where the file system reports no fault of its own, attempts that spare each
other's entries do not fail. -/
theorem sparing_attempts_succeed (reducers : 1 ≤ opts.numReducers)
    (limits : WithinLimits (effective opts) (inputs disk))
    {last : Pool Nat World Request Reply Err Unit}
    (reached : Pool.Reaches (fun me w request reply w' => Spares me w request ∧ w.Performs me request reply w')
      (attempts disk fun _ => opts) last) (i : Nat) (e : Err) : (last.threads i).result ≠ some (.error e) := by
  have served : Pool.Reaches (Serves (planTerms opts disk)) (attempts disk fun _ => opts) last :=
    reached.mono fun i w request reply w' step => ⟨step.1, Or.inl step.2⟩
  have safe := attempts_safe False (fun _ => ownRun (effective opts) (inputs disk))
    (fun i => run_meets id (by omega) (fun _ _ _ _ => rfl) (fun _ _ _ planned => planned)
      fun infeasible => infeasible limits.feasible) served i
  exact fun failed => safe.result failed

def alike : Pool Nat World Request Reply Err Unit := attempts twoLines fun _ => longValues

/-- Process 0 has cut both runs and is about to merge them when process 1 starts
and clears the directory. -/
def clearing : List Nat := List.replicate 17 0 ++ List.replicate 4 1 ++ List.replicate 20 0

theorem duplicates_fail : ∃ last, Pool.Reaches (fun me w request reply w' => w.Performs me request reply w') alike last ∧
    (last.threads 0).result = some (.error .notExist) :=
  ⟨alike.advance (fun me w => w.perform me) clearing,
    Pool.advance_reaches (fun _ _ _ => true) (fun _ => True) (fun _ _ _ _ _ => ⟨rfl, trivial⟩) trivial (by decide +kernel),
    by decide +kernel⟩

/-- Process 1 starts when process 0 has opened its runs, and process 0 ends before
process 1 has named one. -/
def givingWay : List Nat := List.replicate 21 0 ++ List.replicate 10 1 ++ List.replicate 8 0 ++ List.replicate 40 1

theorem sparing_attempts_succeed_givingWay : ∃ last,
    Pool.Reaches (fun me w request reply w' => w.Performs me request reply w') alike last ∧
    (last.threads 0).result = some (.ok ()) ∧ ∀ i e, (last.threads i).result ≠ some (.error e) := by
  have reached : Pool.Reaches (fun me w request reply w' => Spares me w request ∧ w.Performs me request reply w')
      (attempts twoLines fun _ => longValues) (alike.advance (fun me w => w.perform me) givingWay) := by
    refine Pool.advance_reaches
      (fun me w request => decide (me < 2) && (takes request).all fun path => decide (path ∉ (w.notes (1 - me)).needs))
      (fun w => ∀ other, 2 ≤ other → (w.notes other).needs = []) (fun me w request idle admitted => ?_) (fun _ _ => rfl)
      (by decide +kernel)
    rw [Bool.and_eq_true, decide_eq_true_eq] at admitted
    obtain ⟨one, spares⟩ := admitted
    refine ⟨⟨fun path taken other different => ?_, rfl⟩, fun other later => ?_⟩
    · by_cases later : 2 ≤ other
      · rw [idle other later]
        exact List.not_mem_nil
      · have twin : 1 - me = other := by omega
        rw [Option.mem_def.mp taken, Option.all_some, decide_eq_true_eq, twin] at spares
        exact spares
    · rw [perform_notes_of_ne w me (by omega) request]
      exact idle other later
  have limits : WithinLimits (effective longValues) (inputs twoLines) := by
    refine ⟨fun path member => ⟨[49, 10, 50, 10], ?_⟩, by decide +kernel⟩
    cases List.mem_singleton.mp member
    exact ⟨by decide, by decide⟩
  exact ⟨_, reached.mono fun _ _ _ _ _ step => step.2, by decide +kernel,
    sparing_attempts_succeed (by decide) limits reached⟩

end Failure

end FromScratch.Proofs.DuplicateAttempts
