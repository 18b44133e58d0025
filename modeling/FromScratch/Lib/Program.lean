import Mathlib.Logic.Relation
import Mathlib.Logic.Function.Basic

/-! Programs that question a shared state one request at a time, and assertions
about them that survive whatever others do between two requests. Each process
relies on what the others guarantee; the pool theorem ties the circle. -/

namespace FromScratch.Lib

universe u v w

/-- A finished program holds its result; a waiting one its next question and
what it does with every possible answer. -/
inductive Program (Q : Type u) (A : Q → Type v) (ε α : Type w) where
  | done (result : Except ε α)
  | ask (question : Q) (next : A question → Program Q A ε α)

namespace Program
variable {Q : Type u} {A : Q → Type v} {ε α β γ σ ι : Type w}

def bind : Program Q A ε α → (α → Program Q A ε β) → Program Q A ε β
  | .done (.ok value), f => f value
  | .done (.error e), _ => .done (.error e)
  | .ask question next, f => .ask question fun answer => (next answer).bind f

instance : Monad (Program Q A ε) where
  pure value := .done (.ok value)
  bind := bind

def fail (e : ε) : Program Q A ε α := .done (.error e)

/-- Run a program and hand its result over, error or not. -/
def outcome : Program Q A ε α → Program Q A ε (Except ε α)
  | .done result => .done (.ok result)
  | .ask question next => .ask question fun answer => (next answer).outcome

def result : Program Q A ε α → Option (Except ε α)
  | .done result => some result
  | .ask _ _ => none

/-- The body for each item in turn, collecting the values. -/
def each (body : β → Program Q A ε α) : List β → Program Q A ε (List α)
  | [] => pure []
  | item :: items => do
    let value ← body item
    let values ← each body items
    pure (value :: values)

/-- The body for each item in turn, threading an accumulator. -/
def fold (body : γ → β → Program Q A ε γ) : γ → List β → Program Q A ε γ
  | state, [] => pure state
  | state, item :: items => do
    let state ← body state item
    fold body state items

/-- The program alone, against a deterministic server. -/
def run (serve : σ → (question : Q) → A question × σ) : Program Q A ε α → σ → Except ε α × σ
  | .done result, state => (result, state)
  | .ask question next, state =>
    (next (serve state question).1).run serve (serve state question).2

/-- What one process may do with its requests, what it puts up with between
them, and what it promises the others. -/
structure Rules (σ : Type w) (Q : Type u) (A : Q → Type v) where
  exec : σ → (question : Q) → A question → σ → Prop
  rely : σ → σ → Prop
  guarantee : σ → σ → Prop
  rely_refl : ∀ state, rely state state
  rely_trans : ∀ first second third, rely first second → rely second third → rely first third

variable (rules : Rules σ Q A)

def Stable (assertion : σ → Prop) : Prop := ∀ before after, rules.rely before after → assertion before → assertion after

theorem Stable.and {rules : Rules σ Q A} {fact : Prop} {assertion : σ → Prop} (stable : Stable rules assertion) :
    Stable rules fun state => fact ∧ assertion state :=
  fun before after moves holds => ⟨holds.1, stable before after moves holds.2⟩

theorem Stable.exists {rules : Rules σ Q A} {κ : Type*} {assertion : κ → σ → Prop}
    (stable : ∀ index, Stable rules (assertion index)) : Stable rules fun state => ∃ index, assertion index state :=
  fun before after moves ⟨index, holds⟩ => ⟨index, stable index before after moves holds⟩

/-- Every request keeps the guarantee and every result satisfies `post`,
whatever the others do within `rely`. -/
def Safe (post : Except ε α → σ → Prop) : Program Q A ε α → σ → Prop
  | .done result, state => ∀ later, rules.rely state later → post result later
  | .ask question next, state =>
    ∀ later, rules.rely state later → ∀ answer after, rules.exec later question answer after →
      rules.guarantee later after ∧ (next answer).Safe post after

def Triple (pre : σ → Prop) (program : Program Q A ε α) (post : Except ε α → σ → Prop) : Prop :=
  ∀ state, pre state → program.Safe rules post state

/-- The usual postcondition: one assertion for a value, one excuse for an error. -/
def Ends (error : ε → Prop) (value : α → σ → Prop) : Except ε α → σ → Prop
  | .ok result, state => value result state
  | .error e, _ => error e

variable {rules} {program : Program Q A ε α} {post middle : Except ε α → σ → Prop}

theorem Safe.rely {state later : σ} (safe : program.Safe rules post state) (moves : rules.rely state later) :
    program.Safe rules post later := by
  cases program with
  | done result => exact fun last onward => safe last (rules.rely_trans _ _ _ moves onward)
  | ask question next => exact fun last onward => safe last (rules.rely_trans _ _ _ moves onward)

theorem Safe.step {question : Q} {next : A question → Program Q A ε α} {state after : σ} {answer : A question}
    (safe : (ask question next).Safe rules post state) (served : rules.exec state question answer after) :
    rules.guarantee state after ∧ (next answer).Safe rules post after :=
  safe state (rules.rely_refl state) answer after served

theorem Safe.finished {result : Except ε α} {state : σ} (safe : (done result).Safe rules post state) : post result state :=
  safe state (rules.rely_refl state)

theorem Safe.result {result : Except ε α} {state : σ} (safe : program.Safe rules post state)
    (ended : program.result = some result) : post result state := by
  cases program with
  | done found =>
    cases ended
    exact safe.finished
  | ask question next => cases ended

theorem Safe.mono {state : σ} (safe : program.Safe rules middle state)
    (weaker : ∀ result state, middle result state → post result state) : program.Safe rules post state := by
  induction program generalizing state with
  | done result => exact fun later moves => weaker result later (safe later moves)
  | ask question next ih =>
    intro later moves answer after served
    obtain ⟨kept, rest⟩ := safe later moves answer after served
    exact ⟨kept, ih answer rest⟩

theorem Safe.bind {f : α → Program Q A ε β} {last : Except ε β → σ → Prop} {state : σ}
    (safe : program.Safe rules middle state)
    (value : ∀ result state, middle (.ok result) state → (f result).Safe rules last state)
    (error : ∀ e state, middle (.error e) state → last (.error e) state) : (program.bind f).Safe rules last state := by
  induction program generalizing state with
  | done result =>
    cases result with
    | ok result => exact value result state safe.finished
    | error e => exact fun later moves => error e later (safe later moves)
  | ask question next ih =>
    intro later moves answer after served
    obtain ⟨kept, rest⟩ := safe later moves answer after served
    exact ⟨kept, ih answer rest⟩

theorem Safe.outcome {state : σ} (safe : program.Safe rules post state) :
    program.outcome.Safe rules (fun result state => ∃ inner, result = .ok inner ∧ post inner state) state := by
  induction program generalizing state with
  | done result => exact fun later moves => ⟨result, rfl, safe later moves⟩
  | ask question next ih =>
    intro later moves answer after served
    obtain ⟨kept, rest⟩ := safe later moves answer after served
    exact ⟨kept, ih answer rest⟩

/-- What neither the others nor the program itself can undo stays true. -/
theorem Safe.frame {fact : σ → Prop} {state : σ} (stable : Stable rules fact)
    (kept : ∀ before after, rules.guarantee before after → fact before → fact after)
    (safe : program.Safe rules post state) (holds : fact state) :
    program.Safe rules (fun result state => post result state ∧ fact state) state := by
  induction program generalizing state with
  | done result => exact fun later moves => ⟨safe later moves, stable state later moves holds⟩
  | ask question next ih =>
    intro later moves answer after served
    obtain ⟨promise, rest⟩ := safe later moves answer after served
    exact ⟨promise, ih answer rest (kept later after promise (stable state later moves holds))⟩

section Triples
variable {pre : σ → Prop} {error : ε → Prop}

theorem Triple.pre_of {weaker : σ → Prop} (triple : Triple rules weaker program post)
    (implies : ∀ state, pre state → weaker state) : Triple rules pre program post :=
  fun state holds => triple state (implies state holds)

/-- What does not depend on the state may be taken out of a precondition. -/
theorem Triple.given {fact : Prop} (triple : fact → Triple rules pre program post) :
    Triple rules (fun state => fact ∧ pre state) program post :=
  fun state holds => triple holds.1 state holds.2

theorem Triple.choose {κ : Type*} {pre : κ → σ → Prop} (triple : ∀ index, Triple rules (pre index) program post) :
    Triple rules (fun state => ∃ index, pre index state) program post :=
  fun state ⟨index, holds⟩ => triple index state holds

theorem Triple.post_of {value weaker : α → σ → Prop} (triple : Triple rules pre program (Ends error value))
    (implies : ∀ result state, value result state → weaker result state) :
    Triple rules pre program (Ends error weaker) := by
  refine fun state holds => (triple state holds).mono ?_
  rintro (e | result) state ends
  · exact ends
  · exact implies result state ends

theorem Triple.pure {value : α → σ → Prop} {result : α} (stable : Stable rules pre)
    (implies : ∀ state, pre state → value result state) :
    Triple rules pre (Pure.pure result : Program Q A ε α) (Ends error value) :=
  fun state holds later moves => implies later (stable state later moves holds)

theorem Triple.fail {value : α → σ → Prop} {e : ε} (excused : ∀ state, pre state → error e) :
    Triple rules pre (fail e : Program Q A ε α) (Ends error value) :=
  fun state holds _ _ => excused state holds

theorem Triple.ask {question : Q} {next : A question → Program Q A ε α} (reply : A question → σ → Prop)
    (stable : Stable rules pre)
    (served : ∀ state answer after, pre state → rules.exec state question answer after →
      rules.guarantee state after ∧ reply answer after)
    (rest : ∀ answer, Triple rules (reply answer) (next answer) post) : Triple rules pre (.ask question next) post := by
  intro state holds later moves answer after execution
  obtain ⟨kept, replied⟩ := served later answer after (stable state later moves holds) execution
  exact ⟨kept, rest answer after replied⟩

theorem Triple.bind {f : α → Program Q A ε β} {value : α → σ → Prop} {last : β → σ → Prop}
    (first : Triple rules pre program (Ends error value))
    (rest : ∀ result, Triple rules (value result) (f result) (Ends error last)) :
    Triple rules pre (program >>= f) (Ends error last) :=
  fun state holds => (first state holds).bind rest fun _ _ failed => failed

theorem Triple.outcome {value : α → σ → Prop} {outer : ε → Prop} (triple : Triple rules pre program (Ends error value)) :
    Triple rules pre program.outcome (Ends outer fun result state => Ends error value result state) := by
  refine fun state holds => (triple state holds).outcome.mono ?_
  rintro _ state ⟨inner, rfl, ends⟩
  exact ends

theorem Triple.frame {fact : σ → Prop} {value : α → σ → Prop} (triple : Triple rules pre program (Ends error value))
    (stable : Stable rules fact) (kept : ∀ before after, rules.guarantee before after → fact before → fact after) :
    Triple rules (fun state => pre state ∧ fact state) program
      (Ends error fun result state => value result state ∧ fact state) := by
  refine fun state holds => ((triple state holds.1).frame stable kept holds.2).mono ?_
  rintro (e | result) state ⟨ends, fact⟩
  · exact ends
  · exact ⟨ends, fact⟩

/-- The loop rule: `inv` speaks of the items that are done and of what they yielded. -/
theorem Triple.collect {body : β → Program Q A ε α} {items : List β} (inv : List β → List α → σ → Prop)
    (stable : ∀ before found, Stable rules (inv before found))
    (step : ∀ before item todo found, items = before ++ item :: todo → Triple rules (inv before found) (body item)
      (Ends error fun value => inv (before ++ [item]) (found ++ [value]))) :
    Triple rules (inv [] []) (each body items) (Ends error (inv items)) := by
  suffices rest : ∀ todo before found, items = before ++ todo → Triple rules (inv before found) (Program.each body todo)
      (Ends error fun values => inv items (found ++ values)) from rest items [] [] rfl
  intro todo
  induction todo with
  | nil =>
    intro before found cut
    rw [List.append_nil] at cut
    subst cut
    refine .pure (stable _ _) fun state holds => ?_
    rwa [List.append_nil]
  | cons item todo ih =>
    intro before found cut
    refine .bind (step before item todo found cut) fun value => ?_
    refine .bind (ih (before ++ [item]) (found ++ [value]) (by simp [cut])) fun values => ?_
    refine .pure (stable _ _) fun state holds => ?_
    rwa [List.append_assoc, List.singleton_append] at holds

/-- The loop rule where what an item yields is known. -/
theorem Triple.each {body : β → Program Q A ε α} {items : List β} (value : β → α) (inv : List β → σ → Prop)
    (stable : ∀ before, Stable rules (inv before))
    (step : ∀ before item todo, items = before ++ item :: todo → Triple rules (inv before) (body item)
      (Ends error fun found state => found = value item ∧ inv (before ++ [item]) state)) :
    Triple rules (inv []) (each body items) (Ends error fun found state => found = items.map value ∧ inv items state) := by
  refine (Triple.collect (fun before found state => found = before.map value ∧ inv before state)
    (fun before _ => (stable before).and)
    fun before item todo found cut => .given ?_).pre_of fun state holds => ⟨rfl, holds⟩
  rintro rfl
  refine (step before item todo cut).post_of fun last state ends => ?_
  obtain ⟨rfl, holds⟩ := ends
  exact ⟨by rw [List.map_append, List.map_singleton], holds⟩

/-- The loop rule for an accumulator. -/
theorem Triple.fold {body : γ → β → Program Q A ε γ} {items : List β} {start : γ} (inv : List β → γ → σ → Prop)
    (stable : ∀ before acc, Stable rules (inv before acc))
    (step : ∀ before item todo acc, items = before ++ item :: todo → Triple rules (inv before acc) (body acc item)
      (Ends error (inv (before ++ [item])))) :
    Triple rules (inv [] start) (fold body start items) (Ends error (inv items)) := by
  suffices rest : ∀ todo before acc, items = before ++ todo → Triple rules (inv before acc) (Program.fold body acc todo)
      (Ends error (inv items)) from rest items [] start rfl
  intro todo
  induction todo with
  | nil =>
    intro before acc cut
    rw [List.append_nil] at cut
    subst cut
    exact .pure (stable _ _) fun state holds => holds
  | cons item todo ih =>
    intro before acc cut
    exact .bind (step before item todo acc cut) fun acc => ih (before ++ [item]) acc (by simp [cut])

end Triples

/-- Alone against a server that follows the rules, a program ends as promised. -/
theorem Safe.run {serve : σ → (question : Q) → A question × σ} {inv : σ → Prop}
    (follows : ∀ state question, inv state →
      rules.exec state question (serve state question).1 (serve state question).2 ∧ inv (serve state question).2)
    {state : σ} (safe : program.Safe rules post state) (holds : inv state) :
    post (program.run serve state).1 (program.run serve state).2 ∧ inv (program.run serve state).2 := by
  induction program generalizing state with
  | done result => exact ⟨safe.finished, holds⟩
  | ask question next ih =>
    obtain ⟨execution, kept⟩ := follows state question holds
    exact ih _ (safe.step execution).2 kept

structure Pool (ι σ : Type x) (Q : Type u) (A : Q → Type v) (ε α : Type w) where
  state : σ
  threads : ι → Program Q A ε α

section Pool
variable [DecidableEq ι] (exec : ι → σ → (question : Q) → A question → σ → Prop)

/-- One request of one process is served; the processes interleave freely. -/
inductive Pool.Step : Pool ι σ Q A ε α → Pool ι σ Q A ε α → Prop
  | served {pool : Pool ι σ Q A ε α} {i : ι} {question : Q} {next : A question → Program Q A ε α} {answer : A question}
      {after : σ} (waiting : pool.threads i = .ask question next) (execution : exec i pool.state question answer after) :
      Pool.Step pool ⟨after, Function.update pool.threads i (next answer)⟩

def Pool.Reaches : Pool ι σ Q A ε α → Pool ι σ Q A ε α → Prop := Relation.ReflTransGen (Pool.Step exec)

theorem Pool.Reaches.mono {strong weak : ι → σ → (question : Q) → A question → σ → Prop} {first last : Pool ι σ Q A ε α}
    (implies : ∀ i state question answer after, strong i state question answer after → weak i state question answer after)
    (reached : Pool.Reaches strong first last) : Pool.Reaches weak first last := by
  refine Relation.ReflTransGen.mono (fun _ _ step => ?_) _ _ reached
  cases step with
  | served waiting execution => exact .served waiting (implies _ _ _ _ _ execution)

/-- The run in which the processes are served in the order of a schedule. -/
def Pool.advance (serve : ι → σ → (question : Q) → A question × σ) : Pool ι σ Q A ε α → List ι → Pool ι σ Q A ε α
  | pool, [] => pool
  | pool, i :: schedule =>
    match pool.threads i with
    | .done _ => advance serve pool schedule
    | .ask question next =>
      advance serve ⟨(serve i pool.state question).2,
        Function.update pool.threads i (next (serve i pool.state question).1)⟩ schedule

/-- Whether every step of a schedule is one that is admitted. -/
def Pool.admitted (serve : ι → σ → (question : Q) → A question × σ) (admits : ι → σ → Q → Bool) :
    Pool ι σ Q A ε α → List ι → Bool
  | _, [] => true
  | pool, i :: schedule =>
    match pool.threads i with
    | .done _ => admitted serve admits pool schedule
    | .ask question next =>
      admits i pool.state question &&
        admitted serve admits ⟨(serve i pool.state question).2,
          Function.update pool.threads i (next (serve i pool.state question).1)⟩ schedule

theorem Pool.advance_reaches {exec : ι → σ → (question : Q) → A question → σ → Prop}
    {serve : ι → σ → (question : Q) → A question × σ} (admits : ι → σ → Q → Bool) (inv : σ → Prop)
    (follows : ∀ i state question, inv state → admits i state question = true →
      exec i state question (serve i state question).1 (serve i state question).2 ∧ inv (serve i state question).2)
    {pool : Pool ι σ Q A ε α} {schedule : List ι} (holds : inv pool.state)
    (admitted : pool.admitted serve admits schedule = true) :
    Pool.Reaches exec pool (pool.advance serve schedule) := by
  induction schedule generalizing pool with
  | nil => exact .refl
  | cons i schedule ih =>
    rw [Pool.admitted] at admitted
    rw [Pool.advance]
    cases thread : pool.threads i with
    | done result =>
      rw [thread] at admitted
      exact ih holds admitted
    | ask question next =>
      simp only [thread, Bool.and_eq_true] at admitted
      obtain ⟨execution, kept⟩ := follows i pool.state question holds admitted.1
      exact .head (.served thread execution) (ih kept admitted.2)

/-- Processes whose guarantees imply each other's reliances are safe together. -/
theorem Pool.safe {rules : ι → Rules σ Q A} {post : ι → Except ε α → σ → Prop}
    (compatible : ∀ i j before after, i ≠ j → (rules i).guarantee before after → (rules j).rely before after)
    {first last : Pool ι σ Q A ε α} (starts : ∀ i, (first.threads i).Safe (rules i) (post i) first.state)
    (reached : Pool.Reaches (fun i => (rules i).exec) first last) (i : ι) :
    (last.threads i).Safe (rules i) (post i) last.state := by
  induction reached generalizing i with
  | refl => exact starts i
  | @tail pool _ _ step ih =>
    cases step with
    | @served j question next answer after waiting execution =>
      have moved := ih j
      rw [waiting] at moved
      obtain ⟨kept, rest⟩ := moved.step execution
      by_cases same : i = j
      · subst same
        simpa using rest
      · simpa [Function.update_of_ne same] using (ih i).rely (compatible j i _ _ (Ne.symm same) kept)

end Pool
end Program
end FromScratch.Lib
