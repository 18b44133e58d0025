import FromScratch.Lib.Program

/-! Whole runs of one program that nobody disturbs, the requests a program keeps
to whatever it is answered, and runs of a pool with all that was asked in them. -/

namespace FromScratch.Lib.Program

universe u v w

variable {Q : Type u} {A : Q → Type v} {ε α β γ σ : Type w}

/-- A run of a program to its end, with its result. -/
inductive Executes (exec : σ → (question : Q) → A question → σ → Prop) :
    Program Q A ε α → σ → Except ε α → σ → Prop
  | done {result : Except ε α} {state : σ} : Executes exec (.done result) state result state
  | ask {question : Q} {next : A question → Program Q A ε α} {answer : A question} {state after last : σ}
      {result : Except ε α} (served : exec state question answer after)
      (rest : Executes exec (next answer) after result last) : Executes exec (.ask question next) state result last

section Executes
variable {exec : σ → (question : Q) → A question → σ → Prop} {program : Program Q A ε α} {state last : σ}

theorem Executes.bind {f : α → Program Q A ε β} {result : Except ε β}
    (ran : Executes exec (program >>= f) state result last) :
    (∃ e, result = .error e ∧ Executes exec program state (.error e) last) ∨
      ∃ value middle, Executes exec program state (.ok value) middle ∧ Executes exec (f value) middle result last := by
  induction program generalizing state with
  | done inner =>
    cases inner with
    | error e =>
      cases ran
      exact Or.inl ⟨e, rfl, .done⟩
    | ok value => exact Or.inr ⟨value, state, .done, ran⟩
  | ask question next ih =>
    cases ran with
    | ask served rest =>
      rcases ih _ rest with ⟨e, same, first⟩ | ⟨value, middle, first, rest⟩
      · exact Or.inl ⟨e, same, .ask served first⟩
      · exact Or.inr ⟨value, middle, .ask served first, rest⟩

theorem Executes.outcome {result : Except ε (Except ε α)} (ran : Executes exec program.outcome state result last) :
    ∃ inner, result = .ok inner ∧ Executes exec program state inner last := by
  induction program generalizing state with
  | done inner =>
    cases ran
    exact ⟨inner, rfl, .done⟩
  | ask question next ih =>
    cases ran with
    | ask served rest =>
      obtain ⟨inner, same, rest⟩ := ih _ rest
      exact ⟨inner, same, .ask served rest⟩

/-- The outcome of a program is looked at in every case. -/
theorem Executes.outcome_bind {f : Except ε α → Program Q A ε β} {result : Except ε β}
    (ran : Executes exec (program.outcome >>= f) state result last) :
    ∃ inner middle, Executes exec program state inner middle ∧ Executes exec (f inner) middle result last := by
  rcases ran.bind with ⟨e, rfl, failed⟩ | ⟨inner, middle, first, rest⟩
  · obtain ⟨_, same, _⟩ := failed.outcome
    cases same
  · obtain ⟨_, same, first⟩ := first.outcome
    cases same
    exact ⟨_, middle, first, rest⟩

theorem run_executes {serve : σ → (question : Q) → A question × σ}
    (follows : ∀ state question, exec state question (serve state question).1 (serve state question).2) :
    Executes exec program state (program.run serve state).1 (program.run serve state).2 := by
  induction program generalizing state with
  | done result => exact .done
  | ask question next ih => exact .ask (follows state question) (ih _)

end Executes

/-- Whatever it is answered, the program makes only requests that are allowed, and
what it yields is as expected. -/
def Uses (allowed : Q → Prop) (value : α → Prop) : Program Q A ε α → Prop
  | .done (.ok result) => value result
  | .done (.error _) => True
  | .ask question next => allowed question ∧ ∀ answer, (next answer).Uses allowed value

section Uses
variable {allowed : Q → Prop} {program : Program Q A ε α} {value : α → Prop} {last : β → Prop}

theorem Uses.bind {f : α → Program Q A ε β} (first : program.Uses allowed value)
    (rest : ∀ result, value result → (f result).Uses allowed last) : (program >>= f).Uses allowed last := by
  induction program with
  | done result =>
    cases result with
    | ok result => exact rest result first
    | error e => trivial
  | ask question next ih => exact ⟨first.1, fun answer => ih answer (first.2 answer)⟩

theorem Uses.outcome (uses : program.Uses allowed value) :
    program.outcome.Uses allowed fun inner => ∀ result, inner = .ok result → value result := by
  induction program with
  | done inner =>
    rintro result rfl
    exact uses
  | ask question next ih => exact ⟨uses.1, fun answer => ih answer (uses.2 answer)⟩

theorem Uses.fold {body : γ → β → Program Q A ε γ} {inv : γ → Prop}
    (step : ∀ acc item, inv acc → (body acc item).Uses allowed inv) {start : γ} (holds : inv start) (items : List β) :
    (fold body start items).Uses allowed inv := by
  induction items generalizing start with
  | nil => exact holds
  | cons item items ih => exact (step start item holds).bind fun acc holds => ih holds

end Uses

/-- The rules of a process that nobody disturbs. -/
def alone (exec : σ → (question : Q) → A question → σ → Prop) (guarantee : σ → σ → Prop) : Rules σ Q A where
  exec := exec
  rely before after := after = before
  guarantee := guarantee
  rely_refl _ := rfl
  rely_trans _ _ _ early late := late.trans early

section Alone
variable {exec : σ → (question : Q) → A question → σ → Prop} {guarantee : σ → σ → Prop}

theorem stable_alone {assertion : σ → Prop} : Stable (alone exec guarantee) assertion := by
  rintro before _ rfl holds
  exact holds

theorem Safe.executes {program : Program Q A ε α} {post : Except ε α → σ → Prop} {state last : σ} {result : Except ε α}
    (safe : program.Safe (alone exec guarantee) post state) (ran : Executes exec program state result last) :
    post result last := by
  induction ran with
  | done => exact safe.finished
  | ask served rest ih => exact ih (safe.step served).2

end Alone

section Traces

/-- A request that was served: whose it was, and the states around it. -/
structure Event (ι σ : Type w) (Q : Type u) (A : Q → Type v) where
  who : ι
  before : σ
  question : Q
  answer : A question
  after : σ

/-- From one program to what is left of it after some requests and their answers. -/
inductive Follows : Program Q A ε α → List (Sigma A) → Program Q A ε α → Prop
  | nil {program : Program Q A ε α} : Follows program [] program
  | cons {question : Q} {next : A question → Program Q A ε α} {answer : A question} {later : List (Sigma A)}
      {last : Program Q A ε α} (rest : Follows (next answer) later last) :
      Follows (.ask question next) (⟨question, answer⟩ :: later) last

theorem Follows.snoc {program : Program Q A ε α} {asked : List (Sigma A)} {question : Q}
    {next : A question → Program Q A ε α} (follows : Follows program asked (.ask question next)) (answer : A question) :
    Follows program (asked ++ [⟨question, answer⟩]) (next answer) := by
  generalize waiting : Program.ask question next = middle at follows
  induction follows with
  | nil =>
    subst waiting
    exact .cons .nil
  | cons rest ih => exact .cons (ih waiting)

/-- A run of the pool and the requests served in it, in their order. -/
inductive Pool.Runs {ι : Type w} [DecidableEq ι] (exec : ι → σ → (question : Q) → A question → σ → Prop)
    (first : Pool ι σ Q A ε α) : List (Event ι σ Q A) → Pool ι σ Q A ε α → Prop
  | start : Pool.Runs exec first [] first
  | served {events : List (Event ι σ Q A)} {pool : Pool ι σ Q A ε α} {i : ι} {question : Q}
      {next : A question → Program Q A ε α} {answer : A question} {after : σ} (ran : Pool.Runs exec first events pool)
      (waiting : pool.threads i = .ask question next) (execution : exec i pool.state question answer after) :
      Pool.Runs exec first (events ++ [⟨i, pool.state, question, answer, after⟩])
        ⟨after, Function.update pool.threads i (next answer)⟩

variable {ι : Type w} [DecidableEq ι]

theorem Pool.Reaches.runs {exec : ι → σ → (question : Q) → A question → σ → Prop} {first last : Pool ι σ Q A ε α}
    (reached : Pool.Reaches exec first last) : ∃ events, Pool.Runs exec first events last := by
  induction reached with
  | refl => exact ⟨[], .start⟩
  | tail _ step ih =>
    obtain ⟨events, ran⟩ := ih
    cases step with
    | served waiting execution => exact ⟨_, .served ran waiting execution⟩

/-- What one process asked, and the answers it got. -/
def exchanges (i : ι) (events : List (Event ι σ Q A)) : List (Sigma A) :=
  (events.filter fun event => event.who = i).map fun event => ⟨event.question, event.answer⟩

variable {i : ι} {events : List (Event ι σ Q A)} {event : Event ι σ Q A}

theorem exchanges_own (own : event.who = i) :
    exchanges i (events ++ [event]) = exchanges i events ++ [⟨event.question, event.answer⟩] := by
  simp [exchanges, own]

theorem exchanges_snoc {before after : σ} {question : Q} {answer : A question} :
    exchanges i (events ++ [⟨i, before, question, answer, after⟩]) = exchanges i events ++ [⟨question, answer⟩] :=
  exchanges_own rfl

theorem exchanges_other (other : event.who ≠ i) : exchanges i (events ++ [event]) = exchanges i events := by
  simp [exchanges, other]

end Traces
end FromScratch.Lib.Program
