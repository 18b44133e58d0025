import FromScratch.Lib.Execution
import FromScratch.MapReduce.Reducer
import FromScratch.Proofs.FileSteps

/-! Any number of calls of `WriteAtomic` on one path, interleaved step by step.
Each call works on a temporary file of its own, which only its renaming makes
the file; a call that stops for good is one that is not served again. -/

namespace FromScratch.Proofs.AtomicPublication
open FromScratch.MapReduce Lib Program AttemptRules FileSteps

/-- Neither the file nor a temporary file for it. -/
def Foreign (path : Name) (other : Path) : Prop := other ≠ .file path ∧ ∀ creator serial, other ≠ .temp path creator serial

/-- A callback may do what it likes but with the file and the temporary files for
it: of these it writes to the one it is handed, and leaves closing it to the call. -/
def Confined (path : Name) (temp : Path) : Request → Prop
  | .write written _ => written = temp ∨ Foreign path written
  | .close closed => closed ≠ temp
  | .remove removed => Foreign path removed
  | .rename moved target => Foreign path moved ∧ target ≠ path
  | .createTemp target => target ≠ path
  | _ => True

abbrev Log := List (Event Nat World Request Reply)

/-- What a request added to a temporary file, in full or in part. -/
def appended (temp : Path) (event : Event Nat World Request Reply) : GoString :=
  match event.question with
  | .write written _ =>
    if written = temp then
      ((event.after.files.lookup temp).getD []).drop ((event.before.files.lookup temp).getD []).length
    else []
  | _ => []

/-- All that has been written to a temporary file. -/
def produced (temp : Path) (events : Log) : GoString := events.flatMap (appended temp)

variable {α : Type} (path : Name) (write : Nat → Path → Attempt α)

/-- Call `i` was handed `temp` for its callback, and what it has asked since. -/
def Begun (events : Log) (i : Nat) (temp : Path) (later : List (Sigma Reply)) : Prop :=
  ∃ made, exchanges i events = ⟨.mkdirAll path.dir, made⟩ :: ⟨.createTemp path, .ok temp⟩ :: later

/-- The callback of call `i` ran to its end and returned no error. -/
def Returned (events : Log) (i : Nat) (temp : Path) (value : α) : Prop :=
  ∃ body later, Begun path events i temp (body ++ later) ∧ Follows (write i temp) body (.done (.ok value))

section Continuations
variable (temp : Path)

def discard (e : Err) : Attempt α := do
  let _ ← (call (.remove temp)).outcome
  .fail e

def publish (value : α) : Attempt α := do
  match ← (call (.rename temp path)).outcome with
  | .error e => discard temp e
  | .ok _ => pure value

/-- What `WriteAtomic` does once the callback has returned. -/
def settle : Except Err α → Attempt α
  | .error e => do
    let _ ← (call (.close temp)).outcome
    discard temp e
  | .ok value => do
    match ← (call (.close temp)).outcome with
    | .error e => discard temp e
    | .ok _ => publish path temp value

def create (callback : Path → Attempt α) : Attempt α := do
  let temp ← call (.createTemp path)
  let inner ← (callback temp).outcome
  settle path temp inner

theorem writeAtomic_eq (callback : Path → Attempt α) :
    Storage.writeAtomic path callback = (do let _ ← call (.mkdirAll path.dir); create path callback) := by
  refine congrArg (bind _) (funext fun _ => congrArg (bind _)
    (funext fun temp => congrArg (bind _) (funext fun inner => ?_)))
  cases inner with
  | error e => rfl
  | ok value =>
    refine congrArg (bind _) (funext fun closed => ?_)
    cases closed with
    | error e => rfl
    | ok =>
      refine congrArg (bind _) (funext fun renamed => ?_)
      cases renamed <;> rfl

end Continuations

/-- The path has not been changed by call `i`. -/
def Spotless (events : Log) (i : Nat) : Prop :=
  ∀ event ∈ events, event.who = i → event.after.files.lookup (.file path) = event.before.files.lookup (.file path)

/-- Call `i` made what its callback wrote the content of the path. -/
def Installed (events : Log) (i : Nat) (value : α) : Prop :=
  ∃ serial, Returned path write events i (.temp path i serial) value ∧ ∃ event ∈ events, event.who = i ∧
    event.after.files.lookup (.file path) = some (produced (.temp path i serial) events)

/-- The temporary file of call `i` is gone, unless removing it did not work. -/
def Cleaned (events : Log) (w : World) (i : Nat) (temp : Path) : Prop :=
  w.files.lookup temp = none ∨ ∃ event ∈ events, event.who = i ∧ event.question = .remove temp ∧
    event.after.files.lookup temp ≠ none

/-- How far call `i` has got. -/
inductive Stage (events : Log) (w : World) (i : Nat) : Attempt α → Prop
  | starting (fresh : exchanges i events = []) (blank : ∀ serial, produced (.temp path i serial) events = [])
      (spotless : Spotless path events i) :
      Stage events w i (Storage.writeAtomic path (write i))
  | made {made : Except Err Unit} (asked : exchanges i events = [⟨.mkdirAll path.dir, made⟩])
      (blank : ∀ serial, produced (.temp path i serial) events = []) (spotless : Spotless path events i) :
      Stage events w i (create path (write i))
  | writing {serial : Nat} {body : List (Sigma Reply)} {rest : Attempt α}
      (begun : Begun path events i (.temp path i serial) body) (follows : Follows (write i (.temp path i serial)) body rest)
      (uses : rest.Uses (Confined path (.temp path i serial)) fun _ => True)
      (content : w.files.lookup (.temp path i serial) = some (produced (.temp path i serial) events))
      (spotless : Spotless path events i) : Stage events w i (rest.outcome >>= settle path (.temp path i serial))
  | publishing {serial : Nat} {value : α} (returned : Returned path write events i (.temp path i serial) value)
      (content : w.files.lookup (.temp path i serial) = some (produced (.temp path i serial) events))
      (spotless : Spotless path events i) : Stage events w i (publish path (.temp path i serial) value)
  | discarding {serial : Nat} {e : Err} {later : List (Sigma Reply)}
      (begun : Begun path events i (.temp path i serial) later)
      (spotless : Spotless path events i) : Stage events w i (discard (.temp path i serial) e)
  | failed {e : Err} (cleaned : ∀ temp later, Begun path events i temp later →
      (∃ serial, temp = .temp path i serial) ∧ Cleaned events w i temp)
      (spotless : Spotless path events i) : Stage events w i (.done (.error e))
  | finished {value : α} (installed : Installed path write events i value) : Stage events w i (.done (.ok value))

section Events
variable {path write}
variable {events : Log} {event : Event Nat World Request Reply} {w w' : World} {i : Nat} {temp : Path} {value : α}

theorem produced_snoc : produced temp (events ++ [event]) = produced temp events ++ appended temp event := by
  simp [produced]

theorem appended_elsewhere (elsewhere : temp ∉ changed event.before event.who event.question) :
    appended temp event = [] := by
  unfold appended
  split
  next written bytes asked =>
    rw [asked] at elsewhere
    exact if_neg fun same => elsewhere (List.mem_singleton.mpr same.symm)
  next => rfl

/-- A file that is only written to holds all that has been written to it. -/
theorem content_snoc {request : Request} {reply : Reply request}
    (content : w.files.lookup temp = some (produced temp events))
    (served : w.Delivers i request reply w') (writes : temp ∈ changed w i request → ∃ bytes, request = .write temp bytes) :
    w'.files.lookup temp = some (produced temp (events ++ [⟨i, w, request, reply, w'⟩])) := by
  rw [produced_snoc]
  by_cases here : temp ∈ changed w i request
  · obtain ⟨bytes, rfl⟩ := writes here
    obtain ⟨written, _, left, _⟩ := delivers_write served
    rw [content, Option.map_some] at left
    simp [appended, content, left]
  · rw [delivers_unchanged served here, content, appended_elsewhere here, List.append_nil]

theorem Spotless.snoc (spotless : Spotless path events i)
    (kept : event.who = i → event.after.files.lookup (.file path) = event.before.files.lookup (.file path)) :
    Spotless path (events ++ [event]) i := by
  intro other member own
  rcases List.mem_append.mp member with member | member
  · exact spotless other member own
  · cases List.mem_singleton.mp member
    exact kept own

theorem Begun.unique {later later' : List (Sigma Reply)} {temp' : Path} (begun : Begun path events i temp later)
    (begun' : Begun path events i temp' later') : temp' = temp := by
  obtain ⟨made, asked⟩ := begun
  obtain ⟨made', asked'⟩ := begun'
  rw [asked] at asked'
  simp only [List.cons.injEq, Sigma.mk.injEq, heq_eq_eq, true_and, Except.ok.injEq] at asked'
  exact asked'.2.1.symm

theorem Begun.snoc {later : List (Sigma Reply)} (begun : Begun path events i temp later) (own : event.who = i) :
    Begun path (events ++ [event]) i temp (later ++ [⟨event.question, event.answer⟩]) := by
  obtain ⟨made, asked⟩ := begun
  exact ⟨made, by rw [exchanges_own own, asked, List.cons_append, List.cons_append]⟩

theorem Returned.snoc (returned : Returned path write events i temp value) (own : event.who = i) :
    Returned path write (events ++ [event]) i temp value := by
  obtain ⟨body, later, begun, follows⟩ := returned
  have onward := begun.snoc own
  rw [List.append_assoc] at onward
  exact ⟨body, _, onward, follows⟩

theorem Confined.changed {serial : Nat} {request : Request} (confined : Confined path (.temp path i serial) request) :
    .file path ∉ changed w i request ∧ ∀ creator number, .temp path creator number ∈ changed w i request →
      creator = i ∧ ∃ bytes, request = .write (.temp path creator number) bytes := by
  cases request with
  | write written bytes =>
    simp only [FileSteps.changed, List.mem_singleton]
    rcases confined with rfl | ⟨other, foreign⟩
    · refine ⟨by simp, fun creator number same => ?_⟩
      cases same
      exact ⟨rfl, bytes, rfl⟩
    · exact ⟨fun same => other same.symm, fun creator number same => absurd same.symm (foreign creator number)⟩
  | remove removed =>
    obtain ⟨other, foreign⟩ := confined
    simp only [FileSteps.changed, List.mem_singleton]
    exact ⟨fun same => other same.symm, fun creator number same => absurd same.symm (foreign creator number)⟩
  | rename moved target =>
    obtain ⟨⟨other, foreign⟩, aside⟩ := confined
    simp only [FileSteps.changed, List.mem_cons, List.not_mem_nil, or_false]
    refine ⟨?_, fun creator number => ?_⟩
    · rintro (same | same)
      · exact other same.symm
      · cases same
        exact aside rfl
    · rintro (same | same)
      · exact absurd same.symm (foreign creator number)
      · cases same
  | createTemp target =>
    simp only [FileSteps.changed, List.mem_singleton]
    refine ⟨by simp, fun creator number same => ?_⟩
    cases same
    exact absurd rfl confined
  | _ => exact ⟨by simp [FileSteps.changed], by simp [FileSteps.changed]⟩

end Events

section Steps
variable {path write}
variable {events : Log} {w w' : World} {i : Nat}

/-- What a step of call `i` leads to: the next stage, and the path as it was unless
the step is the last one. The temporary files of other calls are left alone. -/
structure Moved (path : Name) (write : Nat → Path → Attempt α) (events : Log) (w : World) (i : Nat) (request : Request)
    (reply : Reply request) (w' : World) (rest : Attempt α) : Prop where
  stage : Stage path write (events ++ [⟨i, w, request, reply, w'⟩]) w' i rest
  aside : ∀ creator serial, .temp path creator serial ∈ changed w i request → creator = i
  file : w'.files.lookup (.file path) = w.files.lookup (.file path) ∨ ∃ value, rest = .done (.ok value) ∧
    ∃ serial, Returned path write (events ++ [⟨i, w, request, reply, w'⟩]) i (.temp path i serial) value ∧
      w'.files.lookup (.file path) = some (produced (.temp path i serial) (events ++ [⟨i, w, request, reply, w'⟩]))

variable {request : Request} {next : Reply request → Attempt α} {reply : Reply request}
  (served : w.Delivers i request reply w')
include served

theorem starting_step (fresh : exchanges i events = []) (blank : ∀ serial, produced (.temp path i serial) events = [])
    (spotless : Spotless path events i)
    (waiting : .ask request next = Storage.writeAtomic path (write i)) :
    Moved path write events w i request reply w' (next reply) := by
  rw [writeAtomic_eq] at waiting
  cases waiting
  have kept : w'.files.lookup (.file path) = w.files.lookup (.file path) := delivers_unchanged served (by simp [changed])
  have asked : exchanges i (events ++ [⟨i, w, .mkdirAll path.dir, reply, w'⟩]) = [⟨.mkdirAll path.dir, reply⟩] :=
    by rw [exchanges_snoc, fresh, List.nil_append]
  refine ⟨?_, by simp [changed], Or.inl kept⟩
  cases reply with
  | error e =>
    refine .failed (fun temp later begun => ?_) (spotless.snoc fun _ => kept)
    obtain ⟨made, log⟩ := begun
    cases asked.symm.trans log
  | ok =>
    exact .made asked (fun serial => produced_snoc.trans (by rw [blank, List.nil_append]; rfl)) (spotless.snoc fun _ => kept)

theorem made_step {made : Except Err Unit}
    (confined : ∀ serial, (write i (.temp path i serial)).Uses (Confined path (.temp path i serial)) fun _ => True)
    (blank : ∀ serial, produced (.temp path i serial) events = [])
    (asked : exchanges i events = [⟨.mkdirAll path.dir, made⟩]) (spotless : Spotless path events i)
    (waiting : .ask request next = create path (write i)) : Moved path write events w i request reply w' (next reply) := by
  cases waiting
  have kept : w'.files.lookup (.file path) = w.files.lookup (.file path) := delivers_unchanged served (by simp [changed])
  have asked : exchanges i (events ++ [⟨i, w, .createTemp path, reply, w'⟩]) =
      [⟨.mkdirAll path.dir, made⟩, ⟨.createTemp path, reply⟩] := by rw [exchanges_snoc, asked, List.singleton_append]
  refine ⟨?_, fun creator serial same => ?_, Or.inl kept⟩
  · rcases delivers_createTemp served with ⟨⟨e, rfl⟩, _⟩ | ⟨rfl, empty, _⟩
    · refine .failed (fun temp later begun => ?_) (spotless.snoc fun _ => kept)
      obtain ⟨made, log⟩ := begun
      cases asked.symm.trans log
    · refine .writing ⟨made, asked⟩ .nil (confined w.serial) ?_ (spotless.snoc fun _ => kept)
      rw [empty, produced_snoc, blank]
      rfl
  · cases List.mem_singleton.mp same
    rfl

theorem discarding_step {serial : Nat} {e : Err} {later : List (Sigma Reply)}
    (begun : Begun path events i (.temp path i serial) later)
    (spotless : Spotless path events i) (waiting : .ask request next = discard (.temp path i serial) e) :
    Moved path write events w i request reply w' (next reply) := by
  cases waiting
  have kept : w'.files.lookup (.file path) = w.files.lookup (.file path) := delivers_unchanged served (by simp [changed])
  refine ⟨.failed (fun temp later' begun' => ?_) (spotless.snoc fun _ => kept), fun creator number same => ?_, Or.inl kept⟩
  · cases (begun.snoc rfl).unique begun'
    refine ⟨⟨serial, rfl⟩, ?_⟩
    by_cases gone : w'.files.lookup (.temp path i serial) = none
    · exact Or.inl gone
    · exact Or.inr ⟨_, List.mem_append_right _ (List.mem_singleton.mpr rfl), rfl, rfl, gone⟩
  · cases List.mem_singleton.mp same
    rfl

theorem publishing_step {serial : Nat} {value : α} (returned : Returned path write events i (.temp path i serial) value)
    (content : w.files.lookup (.temp path i serial) = some (produced (.temp path i serial) events))
    (spotless : Spotless path events i) (waiting : .ask request next = publish path (.temp path i serial) value) :
    Moved path write events w i request reply w' (next reply) := by
  cases waiting
  have aside : ∀ creator number, .temp path creator number ∈ changed w i (.rename (.temp path i serial) path) →
    creator = i := by
    intro creator number member
    simp only [changed, List.mem_cons, List.not_mem_nil, or_false] at member
    rcases member with same | same <;> cases same
    rfl
  rcases delivers_rename served with ⟨⟨e, rfl⟩, files⟩ | ⟨rfl, bytes, found, named⟩
  · have kept : w'.files.lookup (.file path) = w.files.lookup (.file path) := by rw [files]
    obtain ⟨body, later, begun, _⟩ := returned
    exact ⟨.discarding (begun.snoc rfl) (spotless.snoc fun _ => kept), aside, Or.inl kept⟩
  · -- What the file holds from now on is what the callback wrote.
    cases content.symm.trans found
    have same : produced (.temp path i serial) (events ++ [⟨i, w, .rename (.temp path i serial) path, .ok (), w'⟩]) =
        produced (.temp path i serial) events := produced_snoc.trans (List.append_nil _)
    rw [← same] at named
    refine ⟨.finished ⟨serial, returned.snoc rfl, _, List.mem_append_right _ (List.mem_singleton.mpr rfl), rfl, named⟩,
      aside, ?_⟩
    exact Or.inr ⟨value, rfl, serial, returned.snoc rfl, named⟩

theorem writing_step {serial : Nat} {body : List (Sigma Reply)} {rest : Attempt α}
    (begun : Begun path events i (.temp path i serial) body) (follows : Follows (write i (.temp path i serial)) body rest)
    (uses : rest.Uses (Confined path (.temp path i serial)) fun _ => True)
    (content : w.files.lookup (.temp path i serial) = some (produced (.temp path i serial) events))
    (spotless : Spotless path events i) (waiting : .ask request next = rest.outcome >>= settle path (.temp path i serial)) :
    Moved path write events w i request reply w' (next reply) := by
  cases rest with
  | ask asked later =>
    -- the callback goes on
    cases waiting
    obtain ⟨elsewhere, own⟩ := uses.1.changed
    have kept : w'.files.lookup (.file path) = w.files.lookup (.file path) := delivers_unchanged served elsewhere
    refine ⟨?_, fun creator number member => (own creator number member).1, Or.inl kept⟩
    exact .writing (begun.snoc rfl) (follows.snoc reply) (uses.2 reply)
      (content_snoc content served fun member => (own i serial member).2) (spotless.snoc fun _ => kept)
  | done inner =>
    -- the callback has returned and its file is closed
    have closing {rest : Attempt α} {reply : Except Err Unit}
        (served : w.Delivers i (.close (.temp path i serial)) reply w')
        (stage : Begun path (events ++ [⟨i, w, .close (.temp path i serial), reply, w'⟩]) i (.temp path i serial)
            (body ++ [⟨.close (.temp path i serial), reply⟩]) →
          w'.files.lookup (.temp path i serial) =
            some (produced (.temp path i serial) (events ++ [⟨i, w, .close (.temp path i serial), reply, w'⟩])) →
          Spotless path (events ++ [⟨i, w, .close (.temp path i serial), reply, w'⟩]) i →
          Stage path write (events ++ [⟨i, w, .close (.temp path i serial), reply, w'⟩]) w' i rest) :
        Moved path write events w i (.close (.temp path i serial)) reply w' rest := by
      have kept : w'.files.lookup (.file path) = w.files.lookup (.file path) := delivers_unchanged served (by simp [changed])
      exact ⟨stage (begun.snoc rfl) (content_snoc content served (by simp [changed])) (spotless.snoc fun _ => kept),
        by simp [changed], Or.inl kept⟩
    cases inner with
    | error e =>
      cases waiting
      refine closing served fun begun content spotless => ?_
      cases reply <;> exact .discarding begun spotless
    | ok value =>
      cases waiting
      refine closing served fun begun content spotless => ?_
      cases reply with
      | error e => exact .discarding begun spotless
      | ok => exact .publishing ⟨body, _, begun, follows⟩ content spotless

/-- One step of call `i`. -/
theorem Stage.step (confined : ∀ serial, (write i (.temp path i serial)).Uses
    (Confined path (.temp path i serial)) fun _ => True)
    (stage : Stage path write events w i (.ask request next)) :
    Moved path write events w i request reply w' (next reply) := by
  generalize waiting : Program.ask request next = thread at stage
  cases stage with
  | starting fresh blank spotless => exact starting_step served fresh blank spotless waiting
  | made asked blank spotless => exact made_step served confined blank asked spotless waiting
  | writing begun follows uses content spotless => exact writing_step served begun follows uses content spotless waiting
  | publishing returned content spotless => exact publishing_step served returned content spotless waiting
  | discarding begun spotless => exact discarding_step served begun spotless waiting
  | failed => cases waiting
  | finished => cases waiting

end Steps

section Others
variable {path write}
variable {events : Log} {event : Event Nat World Request Reply} {w : World} {i : Nat} (different : event.who ≠ i)
include different

theorem Begun.other {temp : Path} {later : List (Sigma Reply)} :
    Begun path (events ++ [event]) i temp later ↔ Begun path events i temp later := by
  simp only [Begun, exchanges_other different]

theorem Returned.other {temp : Path} {value : α} :
    Returned path write (events ++ [event]) i temp value ↔ Returned path write events i temp value := by
  simp only [Returned, Begun.other different]

variable (nothing : ∀ serial, appended (.temp path i serial) event = [])
include nothing

omit different in
theorem produced_other (serial : Nat) :
    produced (.temp path i serial) (events ++ [event]) = produced (.temp path i serial) events := by
  rw [produced_snoc, nothing, List.append_nil]

/-- A call does not notice the steps of the others. -/
theorem Stage.other {thread : Attempt α} (stage : Stage path write events w i thread)
    (kept : ∀ serial, event.after.files.lookup (.temp path i serial) = w.files.lookup (.temp path i serial)) :
    Stage path write (events ++ [event]) event.after i thread := by
  have aside {events : Log} (spotless : Spotless path events i) : Spotless path (events ++ [event]) i :=
    spotless.snoc fun own => absurd own different
  have same (serial : Nat) : produced (.temp path i serial) (events ++ [event]) = produced (.temp path i serial) events :=
    produced_other nothing serial
  cases stage with
  | starting fresh blank spotless =>
    exact .starting (by rwa [exchanges_other different]) (fun serial => (same serial).trans (blank serial)) (aside spotless)
  | made asked blank spotless =>
    exact .made (by rwa [exchanges_other different]) (fun serial => (same serial).trans (blank serial)) (aside spotless)
  | writing begun follows uses content spotless =>
    exact .writing ((Begun.other different).mpr begun) follows uses (by rwa [kept, same]) (aside spotless)
  | publishing returned content spotless =>
    exact .publishing ((Returned.other different).mpr returned) (by rwa [kept, same]) (aside spotless)
  | discarding begun spotless => exact .discarding ((Begun.other different).mpr begun) (aside spotless)
  | failed cleaned spotless =>
    refine .failed (fun temp later begun => ?_) (aside spotless)
    obtain ⟨⟨serial, rfl⟩, gone | ⟨removal, member, refused⟩⟩ := cleaned temp later ((Begun.other different).mp begun)
    · exact ⟨⟨serial, rfl⟩, Or.inl ((kept serial).trans gone)⟩
    · exact ⟨⟨serial, rfl⟩, Or.inr ⟨removal, List.mem_append_left _ member, refused⟩⟩
  | finished installed =>
    obtain ⟨serial, returned, move, member, own, content⟩ := installed
    refine .finished ⟨serial, (Returned.other different).mpr returned, move, List.mem_append_left _ member, own, ?_⟩
    rw [content, same]

end Others

theorem settle_asks {temp : Path} {rest : Attempt α} {result : Except Err α} :
    Program.done result ≠ (rest.outcome >>= settle path temp) := by
  intro ended
  cases rest with
  | ask => cases ended
  | done inner => cases inner <;> cases ended

theorem Stage.installed {events : Log} {w : World} {i : Nat} {value : α}
    (stage : Stage path write events w i (.done (.ok value))) : Installed path write events i value := by
  generalize ended : Program.done (.ok value) = thread at stage
  cases stage with
  | finished installed =>
    cases ended
    exact installed
  | writing => exact absurd ended (settle_asks path)
  | _ => cases ended

theorem Stage.cleaned {events : Log} {w : World} {i : Nat} {e : Err}
    (stage : Stage path write events w i (.done (.error e))) :
    Spotless path events i ∧ ∀ temp later, Begun path events i temp later → Cleaned events w i temp := by
  generalize ended : Program.done (.error e) = thread at stage
  cases stage with
  | failed cleaned spotless => exact ⟨spotless, fun temp later begun => (cleaned temp later begun).2⟩
  | writing => exact absurd ended (settle_asks path)
  | _ => cases ended

section Pools
variable {path write}
variable {first last : Pool Nat World Request Reply Err α} {events : Log}

/-- What the path holds in a run: what it held at the start, or what the callback of a finished call wrote. -/
def Sound (path : Name) (write : Nat → Path → Attempt α) (first last : Pool Nat World Request Reply Err α)
    (events : Log) : Prop :=
  last.state.files.lookup (.file path) = first.state.files.lookup (.file path) ∨
    ∃ i value serial, last.threads i = .done (.ok value) ∧ Returned path write events i (.temp path i serial) value ∧
      last.state.files.lookup (.file path) = some (produced (.temp path i serial) events)

theorem runs_sound (calls : ∀ i, first.threads i = Storage.writeAtomic path (write i))
    (confined : ∀ i serial, (write i (.temp path i serial)).Uses (Confined path (.temp path i serial)) fun _ => True)
    (ran : Pool.Runs World.Delivers first events last) :
    (∀ i, Stage path write events last.state i (last.threads i)) ∧ Sound path write first last events := by
  induction ran with
  | start =>
    refine ⟨fun i => ?_, Or.inl rfl⟩
    rw [calls]
    exact .starting rfl (fun _ => rfl) nofun
  | @served events pool i request next reply after ran waiting served ih =>
    obtain ⟨stages, sound⟩ := ih
    have stage := stages i
    rw [waiting] at stage
    obtain ⟨onward, aside, file⟩ := stage.step served (confined i)
    -- the temporary files of the other calls are none of its business
    have elsewhere {j : Nat} (different : i ≠ j) (serial : Nat) : .temp path j serial ∉ changed pool.state i request :=
      fun member => different (aside j serial member).symm
    have nothing {j : Nat} (different : i ≠ j) (serial : Nat) :
        appended (.temp path j serial) ⟨i, pool.state, request, reply, after⟩ = [] :=
      appended_elsewhere (elsewhere different serial)
    refine ⟨fun j => ?_, ?_⟩
    · by_cases same : i = j
      · subst same
        simp only [Function.update_self]
        exact onward
      · simp only [Function.update_of_ne (Ne.symm same)]
        exact (stages j).other same (nothing same) fun serial => delivers_unchanged served (elsewhere same serial)
    · rcases file with kept | ⟨value, ended, serial, returned, content⟩
      · rcases sound with start | ⟨j, value, serial, ended, returned, content⟩
        · exact Or.inl (kept.trans start)
        · have same : i ≠ j := by
            rintro rfl
            cases waiting.symm.trans ended
          refine Or.inr ⟨j, value, serial, ?_, (Returned.other same).mpr returned, ?_⟩
          · simp only [Function.update_of_ne (Ne.symm same)]
            exact ended
          · rw [produced_other (nothing same)]
            exact kept.trans content
      · refine Or.inr ⟨i, value, serial, ?_, returned, content⟩
        simp only [Function.update_self]
        exact ended

/-- However the calls interleave, fail and stop, the path holds what it held at the start or all that the callback of one
call wrote which returned no error. A call that returns no error has put its own there; one that returns an error has never
changed the path, and it leaves no temporary file unless removing it is refused. -/
theorem writeAtomic_all_or_nothing (calls : ∀ i, first.threads i = Storage.writeAtomic path (write i))
    (confined : ∀ i serial, (write i (.temp path i serial)).Uses (Confined path (.temp path i serial)) fun _ => True)
    (ran : Pool.Runs World.Delivers first events last) :
    Sound path write first last events ∧
      (∀ i value, last.threads i = .done (.ok value) → Installed path write events i value) ∧
      ∀ i e, last.threads i = .done (.error e) → Spotless path events i ∧
        ∀ temp later, Begun path events i temp later → Cleaned events last.state i temp := by
  obtain ⟨stages, sound⟩ := runs_sound calls confined ran
  refine ⟨sound, fun i value ended => ?_, fun i e ended => ?_⟩
  · have stage := stages i
    rw [ended] at stage
    exact stage.installed
  · have stage := stages i
    rw [ended] at stage
    exact stage.cleaned

/-- Two calls, each writing one byte. -/
def smallPool : Pool Nat World Request Reply Err Unit where
  state := { files := ∅ }
  threads i := Storage.writeAtomic (.out 0) fun temp => call (.write temp [UInt8.ofNat i])

/-- The first call runs to its end while the second is writing. -/
def smallLast : Pool Nat World Request Reply Err Unit :=
  smallPool.advance (fun i w request => w.perform i request) [0, 1, 0, 1, 0, 1, 0, 0]

theorem writeAtomic_all_or_nothing_small : ∃ events,
    Installed (.out 0) (fun i temp => call (.write temp [UInt8.ofNat i])) events 0 () ∧
      smallLast.state.files.lookup (.file (.out 0)) = some [0] := by
  have reached : Pool.Reaches World.Delivers smallPool smallLast :=
    @Pool.advance_reaches _ _ _ _ _ _ _ World.Delivers (fun i w request => w.perform i request) (fun _ _ _ => true)
      (fun _ => True) (fun i w request _ _ => ⟨Or.inl (Or.inl rfl), trivial⟩) _ _ trivial rfl
  obtain ⟨events, ran⟩ := reached.runs
  have confined : ∀ i serial, Uses (Confined (.out 0) (.temp (.out 0) i serial)) (fun _ => True)
      (call (.write (.temp (.out 0) i serial) [UInt8.ofNat i])) :=
    fun _ _ => ⟨Or.inl rfl, fun reply => by cases reply <;> trivial⟩
  obtain ⟨_, installed, _⟩ := writeAtomic_all_or_nothing (fun _ => rfl) confined ran
  exact ⟨events, installed 0 () rfl, rfl⟩

end Pools

section Callers
open Reducer
variable {path : Name} {temp : Path}

theorem send_confined {w : Writer} (file : w.file = temp) (bytes : GoString) :
    (w.send bytes).Uses (Confined path temp) fun w => w.file = temp :=
  ⟨Or.inl file, fun reply => by cases reply <;> exact file⟩

theorem put_confined {w : Writer} (file : w.file = temp) (bytes : GoString) :
    (w.put bytes).Uses (Confined path temp) fun w => w.file = temp := by
  unfold Writer.put
  split
  · exact file
  · split
    · exact file
    · split
      · exact send_confined file bytes
      · refine (send_confined (w := { w with buffered := [] }) file _).bind fun w file => ?_
        split
        · exact file
        · split
          · exact file
          · exact send_confined file _

theorem write_confined {w : Writer} (file : w.file = temp) (r : Record) :
    (w.write r).Uses (Confined path temp) fun w => w.file = temp :=
  (put_confined file _).bind fun _ file => (put_confined file _).bind fun _ file =>
    (put_confined file _).bind fun _ file => put_confined file _

theorem flush_confined {w : Writer} (file : w.file = temp) : w.flush.Uses (Confined path temp) fun _ => True := by
  unfold Writer.flush
  split
  · trivial
  · split
    · trivial
    · exact ⟨Or.inl file, fun reply => by cases reply <;> trivial⟩

theorem count_confined (name : String) (delta : Int64) :
    Uses (Confined path temp) (fun _ => True) (call (.count name delta)) :=
  ⟨trivial, fun reply => by cases reply <;> trivial⟩

/-- The callback of a map task and of a spill. -/
theorem writeRecords_confined (records : List Record) :
    Uses (Confined path temp) (fun _ => True) (do
      let w ← Program.fold Writer.writeOrFail { file := temp } records
      w.flush) := by
  have step (w : Writer) (r : Record) (file : w.file = temp) :
      (w.writeOrFail r).Uses (Confined path temp) fun w => w.file = temp := by
    refine (write_confined file r).bind fun w file => ?_
    split
    · trivial
    · exact file
  exact (Uses.fold step rfl records).bind fun w file => flush_confined file

theorem flushGroup_confined {opts : Options} {l : Loop} (file : l.writer.file = temp) :
    (flush opts l).Uses (Confined path temp) fun l => l.writer.file = temp := by
  unfold flush
  split
  · exact file
  next key values _ =>
    have step (w : Writer) (value : GoString) (file : w.file = temp) :
        (emit key w value).Uses (Confined path temp) fun w => w.file = temp :=
      (write_confined file _).bind fun w file => (count_confined _ _).bind fun _ _ => file
    refine (Uses.fold step file _).bind fun w file => (count_confined _ _).bind fun _ _ =>
      (count_confined _ _).bind fun _ _ => ?_
    exact file

/-- The callback of a reduce task. -/
theorem reduce_confined (opts : Options) (records : List Record) (err : Option Err) :
    Uses (Confined path temp) (fun _ => True) (do
      let l ← Program.fold (take opts) { writer := { file := temp } } records
      match err with
      | some e => .fail e
      | none =>
        let l ← flush opts l
        l.writer.flush
        pure l.calls) := by
  have step (l : Loop) (r : Record) (file : l.writer.file = temp) :
      (take opts l r).Uses (Confined path temp) fun l => l.writer.file = temp := by
    unfold take
    split
    · exact file
    · split
      · exact (flushGroup_confined file).bind fun l file => file
      · exact file
  refine (Uses.fold step rfl records).bind fun l file => ?_
  cases err with
  | some e => trivial
  | none => exact (flushGroup_confined file).bind fun l file => (flush_confined file).bind fun _ _ => trivial

end Callers
end FromScratch.Proofs.AtomicPublication
