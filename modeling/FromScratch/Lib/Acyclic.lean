import Mathlib.Data.Finset.Card
import Mathlib.Logic.Relation

/-! Relations without cycles: a finite one has a rank that falls along every edge,
and a depth is right if it is one more than the depth above it. -/

namespace FromScratch.Lib.Acyclic
open Relation (TransGen)

variable {α : Type*} {edge : α → α → Prop}

/-- What grows along every edge grows along every path. -/
theorem grows_along {β : Type*} [Preorder β] {depth : α → β}
    (grows : ∀ first last, edge first last → depth first < depth last)
    {first last : α} (path : TransGen edge first last) : depth first < depth last := by
  induction path with
  | single step => exact grows _ _ step
  | tail _ step ih => exact ih.trans (grows _ _ step)

/-- The rank counts what can be reached. -/
theorem exists_rank (nodes : Finset α) (inside : ∀ first last, edge first last → last ∈ nodes)
    (acyclic : ∀ node, ¬TransGen edge node node) :
    ∃ rank : α → ℕ, (∀ first last, edge first last → rank last < rank first) ∧ ∀ node, rank node ≤ nodes.card := by
  classical
  refine ⟨fun node => (nodes.filter (TransGen edge node)).card, fun first last step => ?_,
    fun node => Finset.card_filter_le _ _⟩
  refine Finset.card_lt_card ⟨fun node member => ?_, fun smaller => ?_⟩
  · rw [Finset.mem_filter] at member ⊢
    exact ⟨member.1, .head step member.2⟩
  · have reached : last ∈ nodes.filter (TransGen edge first) := Finset.mem_filter.mpr ⟨inside _ _ step, .single step⟩
    exact acyclic last (Finset.mem_filter.mp (smaller reached)).2

/-- So many edges in a row end in this point. -/
inductive Chain (edge : α → α → Prop) : ℕ → α → Prop
  | start (last : α) : Chain edge 0 last
  | step {length : ℕ} {first last : α} (chain : Chain edge length first) (next : edge first last) :
      Chain edge (length + 1) last

/-- The depth is the length of the longest chain. -/
theorem chain_iff {depth : α → ℕ} {inside : α → Prop} (closed : ∀ first last, inside last → edge first last → inside first)
    (deeper : ∀ last, inside last → ∀ k, k < depth last ↔ ∃ first, edge first last ∧ k ≤ depth first) {last : α}
    (here : inside last) (length : ℕ) : Chain edge length last ↔ length ≤ depth last := by
  induction length generalizing last with
  | zero => exact ⟨fun _ => Nat.zero_le _, fun _ => .start last⟩
  | succ length ih =>
    rw [Nat.succ_le_iff, deeper last here length]
    constructor
    · rintro (_ | ⟨chain, next⟩)
      exact ⟨_, next, (ih (closed _ _ here next)).mp chain⟩
    · rintro ⟨first, next, long⟩
      exact .step ((ih (closed _ _ here next)).mpr long) next

end FromScratch.Lib.Acyclic
