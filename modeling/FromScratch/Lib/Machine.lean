import Mathlib.Data.List.Basic
import Mathlib.Data.List.Induction

/-! Runs of a deterministic machine that answers every input. A history keeps
the state on both sides of each answer, so a property of whole runs can speak
about what was said earlier and about what is true from then on. -/

namespace FromScratch.Lib.Machine

structure Event (σ ι ο : Type*) where
  before : σ
  input : ι
  output : ο
  after : σ

variable {σ ι ο : Type*} (step : σ → ι → ο × σ)

def event (state : σ) (input : ι) : Event σ ι ο :=
  ⟨state, input, (step state input).1, (step state input).2⟩

def after (state : σ) (inputs : List ι) : σ :=
  inputs.foldl (fun current input => (step current input).2) state

def history (state : σ) : List ι → List (Event σ ι ο)
  | [] => []
  | input :: inputs => event step state input :: history (step state input).2 inputs

/-- What the machine has answered. -/
def outputs (state : σ) (inputs : List ι) : List ο := (history step state inputs).map Event.output

@[simp] theorem after_nil (state : σ) : after step state [] = state := rfl

@[simp] theorem after_cons (state : σ) (input : ι) (inputs : List ι) :
    after step state (input :: inputs) = after step (step state input).2 inputs := rfl

theorem after_append (state : σ) (first second : List ι) :
    after step state (first ++ second) = after step (after step state first) second :=
  List.foldl_append

theorem after_concat (state : σ) (inputs : List ι) (input : ι) :
    after step state (inputs ++ [input]) = (step (after step state inputs) input).2 := by
  rw [after_append]
  rfl

theorem history_append (state : σ) (first second : List ι) :
    history step state (first ++ second) =
      history step state first ++ history step (after step state first) second := by
  induction first generalizing state with
  | nil => rfl
  | cons input inputs ih => simp only [List.cons_append, history, ih, after_cons]

theorem history_concat (state : σ) (inputs : List ι) (input : ι) :
    history step state (inputs ++ [input]) =
      history step state inputs ++ [event step (after step state inputs) input] := by
  rw [history_append]
  rfl

theorem outputs_concat (state : σ) (inputs : List ι) (input : ι) :
    outputs step state (inputs ++ [input]) = outputs step state inputs ++ [(step (after step state inputs) input).1] := by
  rw [outputs, history_concat, List.map_append]
  rfl

/-- Cutting a history at one of its events cuts the inputs at the same place. -/
theorem history_split {state : σ} {inputs : List ι} {earlier later : List (Event σ ι ο)}
    {middle : Event σ ι ο} (cut : history step state inputs = earlier ++ middle :: later) :
    ∃ before input rest, inputs = before ++ input :: rest ∧
      earlier = history step state before ∧
      middle = event step (after step state before) input ∧
      later = history step middle.after rest := by
  induction inputs generalizing state earlier with
  | nil => simp [history] at cut
  | cons input inputs ih =>
    cases earlier with
    | nil =>
      simp only [history, List.nil_append, List.cons.injEq] at cut
      obtain ⟨rfl, rfl⟩ := cut
      exact ⟨[], input, inputs, rfl, rfl, rfl, rfl⟩
    | cons first earlier =>
      simp only [history, List.cons_append, List.cons.injEq] at cut
      obtain ⟨rfl, cut⟩ := cut
      obtain ⟨before, middleInput, rest, rfl, rfl, same, rfl⟩ := ih cut
      exact ⟨input :: before, middleInput, rest, rfl, rfl, same, rfl⟩

theorem mem_history {state : σ} {inputs : List ι} {found : Event σ ι ο}
    (member : found ∈ history step state inputs) :
    ∃ before input rest, inputs = before ++ input :: rest ∧
      found = event step (after step state before) input := by
  obtain ⟨earlier, later, cut⟩ := List.append_of_mem member
  obtain ⟨before, input, rest, same, _, found, _⟩ := history_split step cut
  exact ⟨before, input, rest, same, found⟩

section Invariant
variable {step} {P : σ → Prop} (preserved : ∀ state input, P state → P (step state input).2)
include preserved

/-- What holds initially and survives every step holds after every run. -/
theorem invariant_after {state : σ} (holds : P state) (inputs : List ι) :
    P (after step state inputs) := by
  induction inputs generalizing state with
  | nil => exact holds
  | cons input inputs ih => exact ih (preserved state input holds)

/-- What every step from a state of the invariant does, every event of a run does. -/
theorem invariant_history {Q : Event σ ι ο → Prop} (each : ∀ state input, P state → Q (event step state input))
    {state : σ} (holds : P state) {inputs : List ι} : ∀ found ∈ history step state inputs, Q found := by
  intro found member
  obtain ⟨before, input, _, _, rfl⟩ := mem_history step member
  exact each _ input (invariant_after preserved holds before)

end Invariant

/-- An invariant of the answers and the state. -/
theorem invariant_outputs {step : σ → ι → ο × σ} {P : List ο → σ → Prop} {state : σ} (holds : P [] state)
    (preserved : ∀ outputs state input, P outputs state → P (outputs ++ [(step state input).1]) (step state input).2)
    (inputs : List ι) : P (outputs step state inputs) (after step state inputs) := by
  induction inputs using List.reverseRecOn with
  | nil => exact holds
  | append_singleton inputs input ih =>
    rw [outputs_concat, after_concat]
    exact preserved _ _ _ ih

end FromScratch.Lib.Machine
