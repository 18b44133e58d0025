import Mathlib.Data.List.Basic
import Mathlib.Data.List.Count
import Mathlib.Tactic.Ring

/-! Tables of threads of which one moves at a time. A tally collects what every
thread holds, and a move changes it by what the mover gives and takes. -/

namespace FromScratch.Lib.Interleaving

variable {α β : Type*} {threads : List α} {thread moved : α} {k : Nat}

def tally (holds : α → List β) (threads : List α) : List β := threads.flatMap holds

/-- The mover and the others. -/
theorem exists_others (here : threads[k]? = some thread) :
    ∃ before later, threads = before ++ thread :: later ∧ ∀ moved, threads.set k moved = before ++ moved :: later := by
  obtain ⟨inside, rfl⟩ := List.getElem?_eq_some_iff.mp here
  refine ⟨threads.take k, threads.drop (k + 1), ?_, fun moved => List.set_eq_take_append_cons_drop.trans (if_pos inside)⟩
  rw [List.getElem_cons_drop, List.take_append_drop]

theorem count_tally_set [BEq β] (holds : α → List β) (here : threads[k]? = some thread) (moved : α) (item : β) :
    (tally holds (threads.set k moved)).count item + (holds thread).count item =
      (tally holds threads).count item + (holds moved).count item := by
  obtain ⟨before, later, rfl, changed⟩ := exists_others here
  simp only [changed, tally, List.flatMap_append, List.flatMap_cons, List.count_append]
  ring

theorem mem_tally {holds : α → List β} {item : β} : item ∈ tally holds threads ↔ ∃ thread ∈ threads, item ∈ holds thread :=
  List.mem_flatMap

/-- A move that gives and takes nothing. -/
theorem tally_map {holds : α → List β} {change : α → α} (same : ∀ thread, holds (change thread) = holds thread) :
    tally holds (threads.map change) = tally holds threads := by
  rw [tally, List.flatMap_map, tally, List.flatMap_congr fun thread _ => same thread]

/-- What holds of all threads still does if it does of the mover. -/
theorem forall_set {holds : α → Prop} (each : ∀ thread ∈ threads, holds thread) (mover : holds moved) :
    ∀ thread ∈ threads.set k moved, holds thread := by
  intro thread member
  rcases List.mem_or_eq_of_mem_set member with old | rfl
  · exact each thread old
  · exact mover

/-- What holds of every thread by its place still does if it does of the mover. -/
theorem forall_get_set {holds : Nat → α → Prop} (each : ∀ place thread, threads[place]? = some thread → holds place thread)
    (mover : holds k moved) : ∀ place thread, (threads.set k moved)[place]? = some thread → holds place thread := by
  intro place thread found
  rw [List.getElem?_set] at found
  split at found
  next same =>
    subst same
    split at found
    · cases found
      exact mover
    · cases found
  next => exact each place thread found

/-- What some thread does is still done unless it was the mover and it stopped. -/
theorem exists_set {does : α → Prop} (here : threads[k]? = some thread) (doer : ∃ other ∈ threads, does other)
    (mover : does thread → does moved) : ∃ other ∈ threads.set k moved, does other := by
  obtain ⟨before, later, rfl, changed⟩ := exists_others here
  obtain ⟨other, member, doing⟩ := doer
  rw [changed]
  rcases List.mem_append.mp member with early | late
  · exact ⟨other, List.mem_append_left _ early, doing⟩
  · rcases List.mem_cons.mp late with rfl | late
    · exact ⟨moved, List.mem_append_right _ List.mem_cons_self, mover doing⟩
    · exact ⟨other, List.mem_append_right _ (List.mem_cons_of_mem _ late), doing⟩

theorem mem_set_self (here : threads[k]? = some thread) (moved : α) : moved ∈ threads.set k moved := by
  obtain ⟨before, later, _, changed⟩ := exists_others here
  rw [changed]
  exact List.mem_append_right _ List.mem_cons_self

/-- A kind that moves do not change. -/
theorem countP_set {kind : α → Bool} (here : threads[k]? = some thread) (same : kind moved = kind thread) :
    (threads.set k moved).countP kind = threads.countP kind := by
  obtain ⟨before, later, rfl, changed⟩ := exists_others here
  rw [changed, List.countP_append, List.countP_append, List.countP_cons, List.countP_cons, same]

end FromScratch.Lib.Interleaving
