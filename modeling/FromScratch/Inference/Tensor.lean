import FromScratch.Lib.FiniteMap
import Mathlib.Algebra.Ring.Int.Defs
import Mathlib.Algebra.Ring.Nat

/-! Tensors: a shape and a row-major buffer. The element count is a product of
64-bit integers and wraps, so a buffer may be far smaller than its shape says. -/

namespace FromScratch.Inference

/-- A `std::string`: bytes in no particular encoding. -/
abbrev Text := List UInt8

/-- Comparing texts byte by byte is `==`. -/
scoped instance lawfulText : @LawfulBEq Text List.instBEq := inferInstance

def text (literal : String) : Text := literal.toUTF8.data.toList

/-- How a call that does not return ends: by an exception, in an access no
buffer or object stands behind, or never. -/
inductive Fault where
  | invalidArgument (what : Text)
  | runtimeError (what : Text)
  | outOfRange
  | undefined
  | endless
deriving DecidableEq

def Fault.Thrown : Fault → Prop
  | .invalidArgument _ | .runtimeError _ | .outOfRange => True
  | .undefined | .endless => False

instance : DecidablePred Fault.Thrown := fun fault => by
  cases fault <;> simp only [Fault.Thrown] <;> infer_instance

/-- The `float` of the kernels. Nothing is assumed of the operations. -/
class Scalar (F : Type) where
  zero : F
  one : F
  add : F → F → F
  mul : F → F → F
  /-- `std::max`, whose first argument wins ties. -/
  max : F → F → F
  isZero : F → Bool

def computeSize : List UInt64 → UInt64
  | [] => 0
  | shape => shape.foldl (· * ·) 1

/-- The buffer holds `size_` elements and its byte count does not wrap. -/
structure Tensor (F : Type) where
  shape : List UInt64
  data : List F
  sized : data.length = (computeSize shape).toNat
  fits : data.length * 4 < 2 ^ 64

namespace Tensor
variable {F : Type}

def size (tensor : Tensor F) : UInt64 := computeSize tensor.shape

def rank (tensor : Tensor F) : Nat := tensor.shape.length

/-- `shape_.at(axis)`. -/
def dim (tensor : Tensor F) (axis : Nat) : Except Fault UInt64 :=
  match tensor.shape[axis]? with
  | some extent => .ok extent
  | none => .error .outOfRange

/-- `Tensor()`, and what a moved-from tensor looks like. -/
def empty : Tensor F := ⟨[], [], rfl, Nat.two_pow_pos 64⟩

instance : Inhabited (Tensor F) := ⟨empty⟩

/-- `Tensor(shape, allocator)`: filled with `T{}`. A byte count that wraps leaves
a buffer shorter than what is filled. -/
def filled (shape : List UInt64) (value : F) : Except Fault (Tensor F) :=
  if fits : (computeSize shape).toNat * 4 < 2 ^ 64 then
    .ok ⟨shape, List.replicate (computeSize shape).toNat value, List.length_replicate, by rwa [List.length_replicate]⟩
  else .error .undefined

/-- `Tensor(shape, values)`. -/
def ofValues (shape : List UInt64) (values : List F) : Except Fault (Tensor F) :=
  if sized : values.length = (computeSize shape).toNat then
    if fits : values.length * 4 < 2 ^ 64 then .ok ⟨shape, values, sized, fits⟩ else .error .undefined
  else .error (.invalidArgument (text "Tensor data size does not match shape"))

def reshape (tensor : Tensor F) (shape : List UInt64) : Except Fault (Tensor F) :=
  if same : computeSize shape = tensor.size then
    .ok ⟨shape, tensor.data, tensor.sized.trans (congrArg UInt64.toNat same.symm), tensor.fits⟩
  else .error (.invalidArgument (text "Cannot reshape tensor: element count mismatch"))

/-- `data()[index] = change(data()[index])`. -/
def modify (tensor : Tensor F) (index : Nat) (change : F → F) : Except Fault (Tensor F) :=
  match tensor.data[index]? with
  | some value => .ok ⟨tensor.shape, tensor.data.set index (change value), (List.length_set ..).trans tensor.sized,
      (List.length_set ..).symm ▸ tensor.fits⟩
  | none => .error .undefined

@[ext] theorem ext {first second : Tensor F} (shape : first.shape = second.shape) (data : first.data = second.data) :
    first = second := by
  cases first
  cases second
  cases shape
  cases data
  rfl

instance [DecidableEq F] : DecidableEq (Tensor F) := fun first second =>
  decidable_of_iff (first.shape = second.shape ∧ first.data = second.data)
    ⟨fun same => ext same.1 same.2, fun same => ⟨congrArg shape same, congrArg data same⟩⟩

theorem size_pair (rows columns : UInt64) : (computeSize [rows, columns]).toNat = rows.toNat * columns.toNat % 2 ^ 64 := by
  rw [← UInt64.toNat_mul]
  exact congrArg (fun extent => (extent * columns).toNat) (UInt64.one_mul rows)

theorem size_toNat (tensor : Tensor F) : tensor.size.toNat = tensor.data.length := tensor.sized.symm

@[simp] theorem ofValues_self (tensor : Tensor F) : ofValues tensor.shape tensor.data = .ok tensor := by
  rw [ofValues, dif_pos tensor.sized, dif_pos tensor.fits]

theorem modify_of_lt {tensor : Tensor F} {index : Nat} (inside : index < tensor.data.length) (change : F → F) :
    ∃ after, tensor.modify index change = .ok after ∧ after.shape = tensor.shape ∧
      after.data = tensor.data.set index (change tensor.data[index]) := by
  have here := List.getElem?_eq_getElem inside
  refine ⟨⟨tensor.shape, tensor.data.set index (change tensor.data[index]), ?_, ?_⟩, ?_, rfl, rfl⟩
  · rw [List.length_set, tensor.sized]
  · rw [List.length_set]
    exact tensor.fits
  · rw [modify]
    split
    next value found =>
      cases here.symm.trans found
      rfl
    next missing => cases here.symm.trans missing

theorem modify_of_le {tensor : Tensor F} {index : Nat} (outside : tensor.data.length ≤ index) (change : F → F) :
    tensor.modify index change = .error .undefined := by
  rw [modify]
  split
  next value found => cases (List.getElem?_eq_none outside).symm.trans found
  next => rfl

/-- Overwriting an element with a function of itself. -/
theorem modify_const {tensor : Tensor F} {index : Nat} {value : F} (here : tensor.data[index]? = some value)
    (change : F → F) :
    tensor.modify index (fun _ => change value) = tensor.modify index change := by
  rw [modify, modify]
  split
  next other found =>
    cases here.symm.trans found
    rfl
  next missing => rfl

theorem modify_shape {tensor after : Tensor F} {index : Nat} {change : F → F}
    (changed : tensor.modify index change = .ok after) : after.shape = tensor.shape ∧ index < tensor.data.length := by
  rw [modify] at changed
  split at changed
  next value found =>
    cases changed
    exact ⟨rfl, (List.getElem?_eq_some_iff.mp found).1⟩
  next => cases changed

theorem ofValues_ok {shape : List UInt64} {values : List F} {tensor : Tensor F}
    (made : ofValues shape values = .ok tensor) : tensor.shape = shape ∧ tensor.data = values := by
  rw [ofValues] at made
  split at made
  · split at made
    · cases made
      exact ⟨rfl, rfl⟩
    · cases made
  · cases made

theorem filled_ok {shape : List UInt64} {value : F} {tensor : Tensor F} (made : filled shape value = .ok tensor) :
    tensor.shape = shape ∧ tensor.data = List.replicate (computeSize shape).toNat value := by
  rw [filled] at made
  split at made
  · cases made
    exact ⟨rfl, rfl⟩
  · cases made

/-- The shape of a tensor that exists can be allocated again. -/
theorem filled_shape (tensor : Tensor F) (value : F) : ∃ made, filled tensor.shape value = .ok made := by
  have fits := tensor.fits
  rw [tensor.sized] at fits
  exact ⟨_, by rw [filled, dif_pos fits]⟩

end Tensor
end FromScratch.Inference
