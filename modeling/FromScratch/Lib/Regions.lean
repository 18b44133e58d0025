import Mathlib.Data.List.Nodup
import Mathlib.Data.List.Perm.Subperm
import Mathlib.Data.List.Flatten
import Mathlib.Algebra.BigOperators.Group.List.Basic
import Mathlib.Data.Nat.Basic
import Mathlib.Order.Lattice
import Mathlib.Algebra.Ring.Int.Defs
import Mathlib.Algebra.Ring.Nat

/-! Regions of memory that do not overlap, how much room they need together, and
arenas: chunks of memory from whose ends blocks are cut. -/

namespace FromScratch.Lib

/-- The bytes from an address on. -/
structure Region where
  start : Nat
  size : Nat
  deriving DecidableEq

namespace Region

def finish (region : Region) : Nat := region.start + region.size

def Apart (first second : Region) : Prop := first.finish ≤ second.start ∨ second.finish ≤ first.start

def Within (inner outer : Region) : Prop := outer.start ≤ inner.start ∧ inner.finish ≤ outer.finish

theorem Apart.symm {first second : Region} (apart : first.Apart second) : second.Apart first := Or.symm apart

theorem Within.refl (region : Region) : region.Within region := ⟨le_rfl, le_rfl⟩

theorem Within.trans {inner middle outer : Region} (first : inner.Within middle) (second : middle.Within outer) :
    inner.Within outer :=
  ⟨second.1.trans first.1, first.2.trans second.2⟩

theorem Apart.within {first second inner : Region} (apart : first.Apart second) (inside : inner.Within first) :
    inner.Apart second :=
  apart.imp (fun before => inside.2.trans before) fun behind => behind.trans inside.1

def cells (region : Region) : List Nat := List.range' region.start region.size

theorem mem_cells {region : Region} {address : Nat} :
    address ∈ region.cells ↔ region.start ≤ address ∧ address < region.finish := List.mem_range'_1

end Region

/-- No two of the regions overlap. -/
def Separate (regions : List Region) : Prop := regions.Pairwise Region.Apart

namespace Separate
variable {regions others : List Region} {region first second : Region}

theorem perm (separate : Separate regions) (same : regions.Perm others) : Separate others :=
  (same.pairwise_iff fun apart => Region.Apart.symm apart).mp separate

theorem sublist (separate : Separate regions) (part : others.Sublist regions) : Separate others :=
  List.Pairwise.sublist part separate

/-- A region in the place of one it lies in. -/
theorem shrink (separate : Separate (region :: regions)) (inside : first.Within region) : Separate (first :: regions) := by
  obtain ⟨apart, rest⟩ := List.pairwise_cons.mp separate
  exact List.pairwise_cons.mpr ⟨fun other member => (apart other member).within inside, rest⟩

theorem split (separate : Separate (region :: regions)) (left : first.Within region) (right : second.Within region)
    (apart : first.Apart second) : Separate (first :: second :: regions) := by
  refine List.pairwise_cons.mpr ⟨fun other member => ?_, separate.shrink right⟩
  rcases List.mem_cons.mp member with rfl | member
  · exact apart
  · exact (List.pairwise_cons.mp (separate.shrink left)).1 other member

/-- Regions that do not overlap fit one behind the other where they lie. -/
theorem total_le (separate : Separate regions) {room : Region} (inside : ∀ region ∈ regions, region.Within room) :
    (regions.map Region.size).sum ≤ room.size := by
  have distinct : (regions.flatMap Region.cells).Nodup := by
    refine List.nodup_flatMap.mpr ⟨fun region _ => List.nodup_range', separate.imp fun apart address here there => ?_⟩
    have here := Region.mem_cells.mp here
    have there := Region.mem_cells.mp there
    rcases apart with before | behind <;> omega
  have covered : ∀ address ∈ regions.flatMap Region.cells, address ∈ room.cells := by
    intro address member
    obtain ⟨region, listed, here⟩ := List.mem_flatMap.mp member
    have here := Region.mem_cells.mp here
    obtain ⟨lower, upper⟩ := inside region listed
    exact Region.mem_cells.mpr ⟨lower.trans here.1, here.2.trans_le upper⟩
  have count := (List.subperm_of_subset distinct covered).length_le
  simpa [List.length_flatMap, Region.cells, Function.comp_def] using count

end Separate

/-- Wholly inside one chunk, at an offset that is a multiple of the unit. -/
def Placed (unit : Nat) (chunks : List Region) (region : Region) : Prop :=
  ∃ chunk ∈ chunks, region.Within chunk ∧ unit ∣ region.start - chunk.start

/-- What has been cut from some chunks, and the room that is left at the end of
one of them. The last address is below `bound`, the first is not 0. -/
structure Arena (unit bound : Nat) (chunks : List Region) (tail : Region) (held : List Region) : Prop where
  apart : Separate chunks
  space : ∀ chunk ∈ chunks, 0 < chunk.start ∧ unit ∣ chunk.start ∧ chunk.finish ≤ bound
  ending : tail.size = 0 ∨ Placed unit chunks tail
  placed : ∀ region ∈ held, Placed unit chunks region
  separate : Separate (tail :: held)

namespace Arena
variable {unit bound : Nat} {chunks held others : List Region} {tail : Region}

theorem empty (tail : Region) (zero : tail.size = 0) : Arena unit bound [] tail [] :=
  ⟨.nil, nofun, Or.inl zero, nofun, List.pairwise_singleton ..⟩

theorem perm (arena : Arena unit bound chunks tail held) (same : held.Perm others) : Arena unit bound chunks tail others :=
  { arena with
    placed := fun region member => arena.placed region (same.mem_iff.mpr member)
    separate := arena.separate.perm (same.cons tail) }

/-- A new chunk; what is left of the old one is given up. -/
theorem grow (arena : Arena unit bound chunks tail held) {chunk : Region} (positive : 0 < chunk.start)
    (aligned : unit ∣ chunk.start) (room : chunk.finish ≤ bound) (fresh : ∀ other ∈ chunks, chunk.Apart other) :
    Arena unit bound (chunks ++ [chunk]) chunk held := by
  have kept {region : Region} : Placed unit chunks region → Placed unit (chunks ++ [chunk]) region :=
    fun ⟨other, member, place⟩ => ⟨other, List.mem_append_left _ member, place⟩
  refine ⟨?_, fun other member => ?_, Or.inr ⟨chunk, by simp, .refl chunk, by simp⟩, fun region member => ?_, ?_⟩
  · refine List.pairwise_append.mpr ⟨arena.apart, List.pairwise_singleton .., fun other member new same => ?_⟩
    cases List.mem_singleton.mp same
    exact (fresh other member).symm
  · rcases List.mem_append.mp member with old | new
    · exact arena.space other old
    · cases List.mem_singleton.mp new
      exact ⟨positive, aligned, room⟩
  · exact kept (arena.placed region member)
  · refine List.pairwise_cons.mpr ⟨fun region member => ?_, arena.separate.sublist (List.sublist_cons_self ..)⟩
    obtain ⟨other, listed, inside, _⟩ := arena.placed region member
    exact ((fresh other listed).symm.within inside).symm

/-- A block cut from the room that is left. -/
theorem cut (arena : Arena unit bound chunks tail held) {size : Nat} (aligned : unit ∣ size) (positive : 0 < size)
    (fits : size ≤ tail.size) :
    Arena unit bound chunks ⟨tail.start + size, tail.size - size⟩ (⟨tail.start, size⟩ :: held) := by
  obtain ⟨chunk, member, ⟨lower, upper⟩, offset⟩ := arena.ending.resolve_left (by omega)
  have block : Region.Within ⟨tail.start, size⟩ tail := ⟨le_rfl, Nat.add_le_add_left fits _⟩
  have rest : Region.Within ⟨tail.start + size, tail.size - size⟩ tail := by
    refine ⟨Nat.le_add_right _ _, ?_⟩
    simp only [Region.finish]
    omega
  refine { arena with ending := Or.inr ⟨chunk, member, rest.trans ⟨lower, upper⟩, ?_⟩, placed := ?_, separate := ?_ }
  · have sum : tail.start + size - chunk.start = tail.start - chunk.start + size := by omega
    simp only [sum]
    exact (Nat.dvd_add_iff_right offset).mp aligned
  · refine List.forall_mem_cons.mpr ⟨⟨chunk, member, block.trans ⟨lower, upper⟩, offset⟩, arena.placed⟩
  · exact arena.separate.split rest block (Or.inr le_rfl)

/-- What is held is less than the address space. -/
theorem total_lt (arena : Arena unit bound chunks tail held) (nonzero : 0 < bound) {regions : List Region}
    (part : regions.Sublist held) : (regions.map Region.size).sum < bound := by
  have separate := (arena.separate.sublist (List.sublist_cons_self ..)).sublist part
  have inside : ∀ region ∈ regions, region.Within ⟨1, bound - 1⟩ := by
    intro region member
    obtain ⟨chunk, listed, inside, _⟩ := arena.placed region (part.subset member)
    obtain ⟨positive, _, room⟩ := arena.space chunk listed
    refine inside.trans ⟨positive, ?_⟩
    simp only [Region.finish] at room ⊢
    omega
  have bounded := separate.total_le inside
  simp only at bounded
  omega

end Arena
end FromScratch.Lib
