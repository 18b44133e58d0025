import FromScratch.Inference.Allocator
import Mathlib.Order.Bounds.Basic

/-! The size class of a request: the least of the doubled alignments that holds
it, found by doubling. The doubling wraps to 0 beyond the largest of them, and
then nothing ends it; the rounding wraps to 0 before that. -/

namespace FromScratch.Proofs.SizeClasses
open FromScratch.Inference PoolAllocator

/-- The classes there are: a power of two times the alignment. -/
def IsClass (size : Nat) : Prop := ∃ k, size = 64 * 2 ^ k

/-- `rounded` of `sizeClass`. -/
def roundedUp (bytes : UInt64) : UInt64 := (bytes + kAlignment - 1) / kAlignment * kAlignment

theorem sizeClass_eq (bytes : UInt64) : sizeClass bytes = sizeClassFrom (roundedUp bytes) 64 kAlignment := rfl

section Rounding
variable {bytes : UInt64}

theorem roundedUp_toNat (small : bytes.toNat ≤ 2 ^ 64 - 64) : (roundedUp bytes).toNat = (bytes.toNat + 63) / 64 * 64 := by
  have alignment : kAlignment.toNat = 64 := rfl
  have one : (1 : UInt64).toNat = 1 := rfl
  have added : (bytes + kAlignment - 1).toNat = bytes.toNat + 63 := by
    rw [UInt64.toNat_sub, UInt64.toNat_add, alignment, one]
    omega
  rw [roundedUp, UInt64.toNat_mul, UInt64.toNat_div, added, alignment]
  exact Nat.mod_eq_of_lt (by omega)

/-- The last multiple of the alignment is followed by 0. -/
theorem roundedUp_wrapped (large : 2 ^ 64 - 64 < bytes.toNat) : roundedUp bytes = 0 := by
  have alignment : kAlignment.toNat = 64 := rfl
  have one : (1 : UInt64).toNat = 1 := rfl
  have below := bytes.toNat_lt
  have added : (bytes + kAlignment - 1).toNat = bytes.toNat + 63 - 2 ^ 64 := by
    rw [UInt64.toNat_sub, UInt64.toNat_add, alignment, one]
    omega
  have quotient : (bytes + kAlignment - 1) / kAlignment = 0 := by
    rw [← UInt64.toNat_inj, UInt64.toNat_div, added, alignment]
    exact Nat.div_eq_of_lt (by omega)
  rw [roundedUp, quotient, UInt64.zero_mul]

theorem class_holds_iff {size : Nat} (known : IsClass size) (small : bytes.toNat ≤ 2 ^ 64 - 64) :
    (roundedUp bytes).toNat ≤ size ↔ bytes.toNat ≤ size := by
  obtain ⟨k, rfl⟩ := known
  rw [roundedUp_toNat small]
  omega

end Rounding

section Doubling
variable {rounded cls : UInt64}

theorem shiftLeft_one (bits : Nat) (power : cls.toNat = 2 ^ bits) (room : bits < 63) :
    (cls <<< 1).toNat = 2 ^ (bits + 1) := by
  have fits : 2 ^ (bits + 1) < 2 ^ 64 := Nat.pow_lt_pow_right (by decide) (by omega)
  rw [UInt64.toNat_shiftLeft, power, Nat.shiftLeft_eq, pow_succ]
  exact Nat.mod_eq_of_lt (by rwa [pow_succ] at fits)

theorem shiftLeft_out (power : cls.toNat = 2 ^ 63) : cls <<< 1 = 0 := by
  rw [← UInt64.toNat_inj, UInt64.toNat_shiftLeft, power]
  rfl

/-- The loop stops at the first power that reaches the rounded size. -/
theorem sizeClassFrom_least {rounds bits : Nat} (small : rounded.toNat ≤ 2 ^ 63) (power : cls.toNat = 2 ^ bits)
    (few : bits ≤ 63) (enough : 63 < rounds + bits) :
    ∃ result last, sizeClassFrom rounded rounds cls = some result ∧ result.toNat = 2 ^ last ∧ bits ≤ last ∧
      rounded.toNat ≤ 2 ^ last ∧ ∀ k, bits ≤ k → rounded.toNat ≤ 2 ^ k → last ≤ k := by
  induction rounds generalizing cls bits with
  | zero => omega
  | succ rounds ih =>
    rw [sizeClassFrom]
    split
    next lower =>
      have lower := UInt64.lt_iff_toNat_lt.mp lower
      rw [power] at lower
      have room : bits < 63 := (Nat.pow_lt_pow_iff_right (by decide)).mp (lower.trans_le small)
      obtain ⟨result, last, found, same, later, reached, first⟩ := ih (shiftLeft_one bits power room) room (by omega)
      refine ⟨result, last, found, same, by omega, reached, fun k above holds => first k ?_ holds⟩
      -- the power the loop was at does not hold the size
      rcases above.eq_or_lt with rfl | above
      · omega
      · exact above
    next reached =>
      have reached := UInt64.le_iff_toNat_le.mp (UInt64.not_lt.mp reached)
      rw [power] at reached
      exact ⟨cls, bits, rfl, power, le_rfl, reached, fun k above _ => above⟩

/-- No number of rounds gets beyond a size that no power of 64 bits reaches. -/
theorem sizeClassFrom_endless (large : 2 ^ 63 < rounded.toNat) (rounds : Nat)
    (power : cls = 0 ∨ ∃ bits ≤ 63, cls.toNat = 2 ^ bits) : sizeClassFrom rounded rounds cls = none := by
  induction rounds generalizing cls with
  | zero => rfl
  | succ rounds ih =>
    have lower : cls < rounded := by
      rw [UInt64.lt_iff_toNat_lt]
      rcases power with rfl | ⟨bits, few, power⟩
      · exact (Nat.zero_le _).trans_lt large
      · rw [power]
        exact (Nat.pow_le_pow_right (by decide) few).trans_lt large
    rw [sizeClassFrom, if_pos lower]
    refine ih ?_
    rcases power with rfl | ⟨bits, few, power⟩
    · exact Or.inl rfl
    · rcases few.eq_or_lt with rfl | room
      · exact Or.inl (shiftLeft_out power)
      · exact Or.inr ⟨bits + 1, room, shiftLeft_one bits power room⟩

end Doubling

/-- The loop ends with the least class that holds the request. -/
def Classified (bytes : UInt64) : Prop :=
  ∃ cls, sizeClass bytes = some cls ∧ IsLeast {size | IsClass size ∧ bytes.toNat ≤ size} cls.toNat

/-- Whatever memory there is, the request is refused. -/
def Rejected (bytes : UInt64) : Prop := ∀ pool new, (PoolAllocator.allocate pool new bytes).1 = .error .badAlloc

section Requests
variable {bytes : UInt64}

theorem classified (small : bytes.toNat ≤ 2 ^ 63) : Classified bytes := by
  have rounded : (roundedUp bytes).toNat ≤ 2 ^ 63 := by
    rw [roundedUp_toNat (by omega)]
    omega
  obtain ⟨cls, last, found, power, later, reached, first⟩ :=
    @sizeClassFrom_least (roundedUp bytes) kAlignment 64 6 rounded rfl (by decide) (by decide)
  have size : cls.toNat = 64 * 2 ^ (last - 6) := by
    rw [power, show 64 = 2 ^ 6 from rfl, ← pow_add, Nat.add_sub_cancel' later]
  have known : IsClass cls.toNat := ⟨_, size⟩
  refine ⟨cls, found, ⟨known, (class_holds_iff known (by omega)).mp (power ▸ reached)⟩, ?_⟩
  rintro other ⟨⟨k, rfl⟩, holds⟩
  have holds := (class_holds_iff ⟨k, rfl⟩ (by omega)).mpr holds
  rw [show 64 = 2 ^ 6 from rfl, ← pow_add] at holds ⊢
  rw [power]
  exact Nat.pow_le_pow_right (by decide) (first (6 + k) (by omega) holds)

/-- Beyond the largest class the loop does not end. -/
theorem sizeClass_endless (large : 2 ^ 63 < bytes.toNat) (unwrapped : bytes.toNat ≤ 2 ^ 64 - 64) (rounds : Nat) :
    sizeClassFrom (roundedUp bytes) rounds kAlignment = none := by
  refine sizeClassFrom_endless ?_ rounds (Or.inr ⟨6, by decide, rfl⟩)
  rw [roundedUp_toNat unwrapped]
  omega

/-- The last requests of all get the smallest class. -/
theorem sizeClass_wrapped (large : 2 ^ 64 - 64 < bytes.toNat) : sizeClass bytes = some kAlignment := by
  rw [sizeClass_eq, roundedUp_wrapped large]
  rfl

theorem unclassified (large : 2 ^ 63 < bytes.toNat) : ¬Classified bytes := by
  rintro ⟨cls, found, ⟨_, holds⟩, _⟩
  rcases Nat.lt_or_ge (2 ^ 64 - 64) bytes.toNat with wrapped | unwrapped
  · have smallest : kAlignment = cls := Option.some.inj ((sizeClass_wrapped wrapped).symm.trans found)
    rw [← smallest] at holds
    exact absurd (wrapped.trans_le holds) (by decide)
  · cases found.symm.trans (sizeClass_endless large unwrapped 64)

/-- With memory enough nothing is refused. -/
theorem not_rejected (bytes : UInt64) : ¬Rejected bytes := by
  intro rejected
  have refused := rejected { chunkBytes := 0 } fun _ => some 64
  rw [PoolAllocator.allocate] at refused
  split at refused
  · cases refused
  · cases found : sizeClass bytes with
    | none =>
      rw [found] at refused
      cases refused
    | some cls =>
      have blank : freeList { chunkBytes := 0 } cls = [] := rfl
      rw [found] at refused
      simp only [blank, List.getLast?_nil, addChunk] at refused
      split at refused
      next failed => split at failed <;> cases failed
      next => cases refused

/-- A request is given the least class that holds it exactly when there is one. -/
theorem sizeClass_least_iff (bytes : UInt64) : Classified bytes ∨ Rejected bytes ↔ bytes.toNat ≤ 2 ^ 63 := by
  constructor
  · intro settled
    exact not_lt.mp fun large => settled.elim (unclassified large) (not_rejected bytes)
  · exact fun small => Or.inl (classified small)

/-- One byte beyond the largest class, and the last size of all. -/
theorem sizeClass_beyond : ¬(Classified 9223372036854775809 ∨ Rejected 9223372036854775809) ∧
    (∀ rounds, sizeClassFrom (roundedUp 9223372036854775809) rounds kAlignment = none) ∧
    ¬(Classified 18446744073709551615 ∨ Rejected 18446744073709551615) ∧ sizeClass 18446744073709551615 = some 64 :=
  ⟨not_or.mpr ⟨unclassified (by decide), not_rejected _⟩, sizeClass_endless (by decide) (by decide),
    not_or.mpr ⟨unclassified (by decide), not_rejected _⟩, sizeClass_wrapped (by decide)⟩

end Requests
end FromScratch.Proofs.SizeClasses
