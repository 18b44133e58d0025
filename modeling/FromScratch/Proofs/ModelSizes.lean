import Mathlib.Algebra.BigOperators.Group.List.Basic
import FromScratch.Inference.Loader

/-! How large the tensors of a loaded model are: the count of their elements is
multiplied up modulo `2 ^ 64` where it is read and where it is checked. -/

namespace FromScratch.Inference.ModelLoader
open Lib (FiniteMap Reader)
open Lib.Reader (Yields times repeated run_bind_ok run_bind_of_ok)

/-- An initializer as a file gives it. -/
structure Declared where
  name : Text
  dims : List UInt64
  data : List FloatBits

def readDeclared : Stream Declared := do
  let name ← readString
  let ndim ← readU32
  let dims ← times readU64 ndim
  let data ← times readF32 (dims.foldl (· * ·) 1).toNat
  pure ⟨name, dims, data⟩

/-- The table of initializers in a file, behind its magic and version. -/
def readTable : Stream (List Declared) := do
  let _ ← readBytes 4 "magic"
  let _ ← readU32
  let numInitializers ← readU32
  times readDeclared numInitializers

def declared (file : List UInt8) : List Declared :=
  match readTable.run file with
  | .ok (table, _) => table
  | .error _ => []

/-- The number of elements a shape stands for. -/
def exactSize (dims : List UInt64) : Nat := (dims.map UInt64.toNat).prod

theorem foldl_toNat (dims : List UInt64) (start : UInt64) :
    (dims.foldl (· * ·) start).toNat = start.toNat * exactSize dims % 2 ^ 64 := by
  induction dims generalizing start with
  | nil => simp [exactSize, Nat.mod_eq_of_lt start.toNat_lt]
  | cons dim dims ih =>
    have whole : exactSize (dim :: dims) = dim.toNat * exactSize dims := List.prod_cons
    rw [List.foldl_cons, ih, UInt64.toNat_mul, whole, Nat.mod_mul_mod, Nat.mul_assoc]

/-- The initializer a table entry was made from. -/
def declaration (initializer : Text × Tensor FloatBits) : Declared :=
  ⟨initializer.1, initializer.2.shape, initializer.2.data⟩

section Tables
variable {model loaded : Model FloatBits} {bytes rest : List UInt8}

theorem readInitializer_declared (read : (readInitializer model).run bytes = .ok (loaded, rest)) :
    ∃ initializer : Text × Tensor FloatBits, readDeclared.run bytes = .ok (declaration initializer, rest) ∧
      loaded = model.addInitializer initializer.1 initializer.2 ∧
      initializer.2.data.length = exactSize initializer.2.shape % 2 ^ 64 := by
  obtain ⟨name, second, first, read⟩ := run_bind_ok read
  obtain ⟨ndim, third, counted, read⟩ := run_bind_ok read
  obtain ⟨dims, fourth, shaped, read⟩ := run_bind_ok read
  obtain ⟨data, fifth, filled, read⟩ := run_bind_ok read
  have count := ((Yields.any readF32).times _ _ _ _ filled).1
  rw [foldl_toNat, UInt64.toNat_one, Nat.one_mul] at count
  cases made : Tensor.ofValues dims data with
  | error e => rw [made] at read; cases read
  | ok tensor =>
    rw [made] at read
    cases read
    have same : tensor.shape = dims ∧ tensor.data = data := by
      unfold Tensor.ofValues at made
      split at made
      · split at made
        · cases made
          exact ⟨rfl, rfl⟩
        · cases made
      · cases made
    obtain ⟨rfl, rfl⟩ := same
    refine ⟨(name, tensor), ?_, rfl, count⟩
    unfold readDeclared
    rw [run_bind_of_ok first, run_bind_of_ok counted, run_bind_of_ok shaped, run_bind_of_ok filled]
    rfl

theorem repeated_declared {count : Nat} (read : (repeated readInitializer count model).run bytes = .ok (loaded, rest)) :
    ∃ initializers : List (Text × Tensor FloatBits),
      (times readDeclared count).run bytes = .ok (initializers.map declaration, rest) ∧
      loaded = initializers.foldl (fun model initializer => model.addInitializer initializer.1 initializer.2) model ∧
      ∀ initializer ∈ initializers, initializer.2.data.length = exactSize initializer.2.shape % 2 ^ 64 := by
  induction count generalizing model bytes with
  | zero =>
    cases read
    exact ⟨[], rfl, rfl, nofun⟩
  | succ count ih =>
    obtain ⟨next, middle, first, read⟩ := run_bind_ok read
    obtain ⟨initializer, declares, rfl, sized⟩ := readInitializer_declared first
    obtain ⟨initializers, later, rfl, others⟩ := ih read
    refine ⟨initializer :: initializers, ?_, rfl, List.forall_mem_cons.mpr ⟨sized, others⟩⟩
    rw [times, run_bind_of_ok declares, run_bind_of_ok later]
    rfl

theorem foldl_initializers (initializers : List (Text × Tensor FloatBits)) (start : Model FloatBits) :
    (initializers.foldl (fun model initializer => model.addInitializer initializer.1 initializer.2) start).initializers =
      initializers.foldl (fun stored initializer => stored.insert initializer.1 initializer.2) start.initializers := by
  induction initializers generalizing start with
  | nil => rfl
  | cons initializer initializers ih => exact ih _

theorem repeated_initializers (walk : FiniteMap.Traversal Text (NodeEntry FloatBits)) {count : Nat}
    (read : (repeated (readNode walk) count model).run bytes = .ok (loaded, rest)) :
    loaded.initializers = model.initializers := by
  have each (left : Nat) (later : Model FloatBits) (same : later.initializers = model.initializers) :
      Yields (readNode walk later) fun loaded => loaded.initializers = model.initializers := by
    refine (Yields.any _).bind fun _ _ => (Yields.any _).bind fun _ _ => (Yields.any _).bind fun _ _ => ?_
    refine (Yields.any _).bind fun _ _ => (Yields.any _).bind fun _ _ => (Yields.any _).bind fun _ _ => ?_
    exact Yields.pure same
  have all : Yields (repeated (readNode walk) count model) fun loaded => loaded.initializers = model.initializers :=
    @Yields.repeated _ _ _ (fun _ loaded => loaded.initializers = model.initializers) each count model rfl
  exact all bytes loaded rest read

end Tables

section Load
variable {walk : FiniteMap.Traversal Text (NodeEntry FloatBits)} {path : Text} {file : List UInt8} {model : Model FloatBits}

/-- The initializers `load` constructs, in the order of the file's table; a later one replaces an earlier one of its name. -/
theorem load_declared (accepted : load walk path (some file) = .ok model) :
    ∃ initializers : List (Text × Tensor FloatBits), declared file = initializers.map declaration ∧
      model.initializers = initializers.foldl (fun stored initializer => stored.insert initializer.1 initializer.2) ∅ ∧
      ∀ initializer ∈ initializers, initializer.2.data.length = exactSize initializer.2.shape % 2 ^ 64 := by
  obtain ⟨rest, read⟩ := load_accepts accepted
  obtain ⟨magic, second, first, read⟩ := run_bind_ok read
  split at read
  · cases read
  obtain ⟨version, third, versioned, read⟩ := run_bind_ok read
  split at read
  · cases read
  obtain ⟨count, fourth, counted, read⟩ := run_bind_ok read
  obtain ⟨tables, fifth, stored, read⟩ := run_bind_ok read
  obtain ⟨numNodes, sixth, _, read⟩ := run_bind_ok read
  obtain ⟨nodes, seventh, added, read⟩ := run_bind_ok read
  obtain ⟨graphInputs, eighth, _, read⟩ := run_bind_ok read
  obtain ⟨graphOutputs, ninth, _, read⟩ := run_bind_ok read
  cases read
  obtain ⟨initializers, declares, rfl, sized⟩ := repeated_declared stored
  refine ⟨initializers, ?_, ?_, sized⟩
  · have table : readTable.run file = .ok (initializers.map declaration, fifth) := by
      have taken : (readBytes 4 "magic").run file = .ok (magic, second) := by
        simp only [readBytes, Reader.take, StateT.run] at first ⊢
        split at first
        · cases first
        next long =>
          rw [if_neg long]
          exact first
      unfold readTable
      rw [run_bind_of_ok taken, run_bind_of_ok versioned, run_bind_of_ok counted, declares]
    rw [declared, table]
  · exact (repeated_initializers walk added).trans (foldl_initializers initializers {})

/-- In a file that is accepted, the initializers have the size their shape says when, and only when, no product of
dimensions exceeds 64 bits. -/
theorem load_sized_iff (accepted : load walk path (some file) = .ok model) :
    ∃ initializers : List (Text × Tensor FloatBits), declared file = initializers.map declaration ∧
      model.initializers = initializers.foldl (fun stored initializer => stored.insert initializer.1 initializer.2) ∅ ∧
      ((∀ initializer ∈ initializers, initializer.2.size.toNat = exactSize initializer.2.shape ∧
          initializer.2.data.length = exactSize initializer.2.shape) ↔
        ∀ entry ∈ declared file, exactSize entry.dims < 2 ^ 64) := by
  obtain ⟨initializers, declares, stored, sized⟩ := load_declared accepted
  refine ⟨initializers, declares, stored, ?_⟩
  rw [declares, List.forall_mem_map]
  refine forall₂_congr fun initializer member => ?_
  rw [Tensor.size_toNat, and_self, sized initializer member]
  exact Nat.mod_eq_iff_lt (by decide)

/-- One weight of one row and two columns. -/
def pairFile : List UInt8 :=
  kMagic ++ writeU32 kVersion ++ writeU32 1 ++ writeInitializer (text "w", ⟨[1, 2], [7, 9], rfl, by decide⟩) ++ writeU32 0 ++
    writeU32 0 ++ writeU32 0

theorem load_sized_iff_pair : ∃ initializers : List (Text × Tensor FloatBits),
    declared pairFile = initializers.map declaration ∧
    ∀ initializer ∈ initializers, initializer.2.data.length = exactSize initializer.2.shape := by
  have accepted : load .kept [] (some pairFile) =
      .ok ((({} : Model FloatBits)).addInitializer (text "w") ⟨[1, 2], [7, 9], rfl, by decide⟩) := rfl
  obtain ⟨initializers, declares, _, sized⟩ := load_sized_iff accepted
  have table : declared pairFile = [⟨text "w", [1, 2], [7, 9]⟩] := rfl
  refine ⟨initializers, declares, fun initializer member => (sized.mpr ?_ initializer member).2⟩
  rw [table]
  decide

/-- One weight of `2 ^ 32` by `2 ^ 32` elements, and not one of them. -/
def wrappedFile : List UInt8 :=
  kMagic ++ writeU32 kVersion ++ writeU32 1 ++ writeString (text "w") ++ writeU32 2 ++ writeU64 4294967296 ++
    writeU64 4294967296 ++ writeU32 0 ++ writeU32 0 ++ writeU32 0

theorem wrappedFile_accepted : ∃ model tensor, load .kept [] (some wrappedFile) = .ok model ∧
    model.initializers.lookup (text "w") = some tensor ∧ tensor.data.length = 0 ∧ exactSize tensor.shape = 2 ^ 64 :=
  ⟨_, _, rfl, rfl, rfl, by decide⟩

end Load
end FromScratch.Inference.ModelLoader
