import FromScratch.Lib.Decimal
import FromScratch.MapReduce.Counters

/-! What a tally reads as: digits in threes, and the tally again when they are
parsed. The least tally has no digits, since negating it gives it back. -/

namespace FromScratch.Proofs.CounterText
open FromScratch.MapReduce Counters Lib Decimal

/-- A number as text without commas, in the arithmetic of 64 bits. -/
def parseInt (s : GoString) : Option Int64 :=
  let digits := if s.head? = some minus then s.tail else s
  if digits ≠ [] ∧ digits.all (fun digit => IsDigit digit) then
    some (if s.head? = some minus then -Int64.ofNat (value digits) else Int64.ofNat (value digits))
  else none

/-- A minus sign or none, digits in threes, and the tally when it is parsed. -/
def Faithful (v : Int64) : Prop :=
  (∃ sign body, formatInt v = sign ++ body ∧ (sign = [] ∨ sign = [minus]) ∧ Grouped body) ∧
    parseInt (plain (formatInt v)) = some v

section Digits
variable {v : Int64}

theorem toInt_pos : 0 < v ↔ 0 < v.toInt := Int64.lt_iff_toInt_lt

/-- `byte('0' + v%10)`. -/
theorem last_digit (positive : 0 < v) : (48 + v % 10).toInt8.toUInt8 = digit v.toInt.toNat := by
  have nonneg : 0 ≤ v.toInt := Int.le_of_lt (toInt_pos.mp positive)
  have remainder : (v % 10).toInt = v.toInt % 10 := by
    rw [Int64.toInt_mod]
    exact Int.tmod_eq_emod_of_nonneg nonneg
  have sum : (48 + v % 10).toInt = 48 + v.toInt % 10 := by
    have zero : (48 : Int64).toInt = 48 := rfl
    rw [Int64.toInt_add, remainder, zero]
    exact Int.bmod_eq_of_le (by omega) (by omega)
  have byte : (48 + v % 10).toInt8.toInt = 48 + v.toInt % 10 := by
    rw [Int64.toInt_toInt8, sum]
    exact Int.bmod_eq_of_le (by omega) (by omega)
  have fits : 0 ≤ (48 + v % 10).toInt8 := by
    apply Int8.le_iff_toInt_le.mpr
    rw [byte]
    exact (by omega : (0 : Int) ≤ 48 + v.toInt % 10)
  rw [← UInt8.toNat_inj, Int8.toNat_toUInt8_of_le fits, ← Int8.toNat_toInt, byte, digit_toNat]
  omega

/-- The loop writes the digits from the last on. -/
theorem formatDigits_eq {n : Nat} (number : v.toInt = n) (count : Nat) (digits : GoString) :
    formatDigits v count digits = digits ++ separated n count := by
  induction n using Nat.strong_induction_on generalizing v count digits with
  | _ n ih =>
    rw [formatDigits]
    rcases eq_or_ne n 0 with rfl | nonzero
    · have ended : ¬0 < v := by
        rw [toInt_pos, number]
        exact Int.lt_irrefl 0
      rw [if_neg ended, separated_zero, List.append_nil]
    · have positive : 0 < v := by
        rw [toInt_pos, number]
        exact Int.natCast_pos.mpr (Nat.pos_of_ne_zero nonzero)
      have quotient : (v / 10).toInt = (n / 10 : Nat) := by
        rw [toInt_div_ten positive, number]
        rfl
      have digit := last_digit positive
      rw [number, Int.toNat_natCast] at digit
      rw [if_pos positive, separated_pos nonzero]
      simp only
      rw [ih (n / 10) (Nat.div_lt_self (by omega) (by omega)) quotient, digit]
      split <;> simp [comma]

end Digits

section Reading
variable {digits : GoString}

theorem all_digits (only : ∀ digit ∈ digits, IsDigit digit) : digits.all (fun digit => IsDigit digit) = true :=
  List.all_eq_true.mpr fun digit member => decide_eq_true (only digit member)

theorem parseInt_digits (filled : digits ≠ []) (only : ∀ digit ∈ digits, IsDigit digit) :
    parseInt digits = some (Int64.ofNat (value digits)) := by
  have unsigned : ¬digits.head? = some minus := by
    intro signed
    exact absurd (only minus (List.mem_of_mem_head? signed)) (by decide)
  simp only [parseInt, if_neg unsigned]
  exact if_pos ⟨filled, all_digits only⟩

theorem parseInt_minus (filled : digits ≠ []) (only : ∀ digit ∈ digits, IsDigit digit) :
    parseInt (minus :: digits) = some (-Int64.ofNat (value digits)) := by
  simp only [parseInt, List.head?_cons, if_true, List.tail_cons]
  exact if_pos ⟨filled, all_digits only⟩

/-- What the commas are taken out of. -/
theorem plain_reverse (n : Nat) : value (plain (separated n 0).reverse) = n ∧
    ∀ digit ∈ plain (separated n 0).reverse, IsDigit digit := by
  rw [plain, List.filter_reverse]
  refine ⟨value_separated n 0, fun digit member => separated_digits n 0 digit (List.mem_reverse.mp member)⟩

theorem plain_ne_nil {n : Nat} (positive : n ≠ 0) : plain (separated n 0).reverse ≠ [] := by
  intro empty
  have number := (plain_reverse n).1
  rw [empty] at number
  exact positive number.symm

end Reading

section Tallies
variable {v : Int64} {n : Nat}

theorem ofNat_eq (number : v.toInt = n) : Int64.ofNat n = v := by
  rw [← Int64.ofInt_toInt v, number]
  rfl

theorem formatInt_zero : formatInt 0 = [48] := by rw [formatInt, if_pos rfl]

theorem faithful_zero : Faithful 0 := by
  have only : ∀ digit ∈ [(48 : UInt8)], IsDigit digit := List.forall_mem_singleton.mpr ⟨by decide, by decide⟩
  rw [Faithful, formatInt_zero, plain_digits only, parseInt_digits (List.cons_ne_nil _ _) only]
  exact ⟨⟨[], [48], rfl, Or.inl rfl, [48], [], rfl, by decide, by decide, nofun, only⟩, rfl⟩

theorem formatInt_pos (number : v.toInt = n) (positive : n ≠ 0) : formatInt v = (separated n 0).reverse := by
  have nonneg : ¬v < 0 := by
    rw [Int64.lt_iff_toInt_lt, number]
    exact Int.not_lt.mpr (Int.natCast_nonneg n)
  have nonzero : v ≠ 0 := by
    rintro rfl
    exact positive (Int.natCast_eq_zero.mp number.symm)
  simp only [formatInt, if_neg nonzero, if_neg nonneg]
  rw [formatDigits_eq number, List.nil_append]

theorem formatInt_neg (negative : v < 0) (number : (-v).toInt = n) : formatInt v = minus :: (separated n 0).reverse := by
  have nonzero : v ≠ 0 := by
    rintro rfl
    exact absurd negative (by decide)
  simp only [formatInt, if_neg nonzero, if_pos negative]
  rw [formatDigits_eq number, List.nil_append, List.reverse_append]
  rfl

theorem faithful_pos (number : v.toInt = n) (positive : n ≠ 0) : Faithful v := by
  obtain ⟨reads, only⟩ := plain_reverse n
  rw [Faithful, formatInt_pos number positive]
  refine ⟨⟨[], _, rfl, Or.inl rfl, grouped_separated positive⟩, ?_⟩
  rw [parseInt_digits (plain_ne_nil positive) only, reads, ofNat_eq number]

theorem faithful_neg (negative : v < 0) (number : (-v).toInt = n) (positive : n ≠ 0) : Faithful v := by
  obtain ⟨reads, only⟩ := plain_reverse n
  have signed : plain (minus :: (separated n 0).reverse) = minus :: plain (separated n 0).reverse := rfl
  rw [Faithful, formatInt_neg negative number, signed]
  refine ⟨⟨[minus], _, rfl, Or.inr rfl, grouped_separated positive⟩, ?_⟩
  rw [parseInt_minus (plain_ne_nil positive) only, reads, ofNat_eq number, Int64.neg_neg]

theorem faithful (bounded : v ≠ Int64.minValue) : Faithful v := by
  rcases Int.lt_trichotomy v.toInt 0 with negative | zero | positive
  · have least : v.toInt ≠ -2 ^ 63 := fun least => bounded (Int64.toInt_inj.mp (least.trans Int64.toInt_minValue.symm))
    have above := Int64.le_toInt v
    have number : (-v).toInt = v.toInt.natAbs := by
      rw [Int64.toInt_neg, Int.bmod_eq_of_le (by omega) (by omega)]
      omega
    exact faithful_neg (Int64.lt_iff_toInt_lt.mpr negative) number (by omega)
  · have blank : v = 0 := Int64.toInt_inj.mp zero
    rw [blank]
    exact faithful_zero
  · exact faithful_pos (Int.toNat_of_nonneg (Int.le_of_lt positive)).symm (by omega)

/-- The least tally is its own negation: no digit is written. -/
theorem formatInt_least : formatInt Int64.minValue = [minus] := by
  have same : -Int64.minValue = Int64.minValue := rfl
  have least : ¬0 < Int64.minValue := by decide
  have nonzero : Int64.minValue ≠ 0 := by decide
  have negative : Int64.minValue < 0 := by decide
  simp only [formatInt, if_neg nonzero, if_pos negative, same]
  rw [formatDigits, if_neg least]
  rfl

theorem unfaithful_least : ¬Faithful Int64.minValue := by
  rintro ⟨_, reads⟩
  rw [formatInt_least] at reads
  cases reads

/-- Every tally but the least is written as it should be. -/
theorem formatInt_faithful_iff (v : Int64) : Faithful v ↔ v ≠ Int64.minValue := by
  constructor
  · rintro reads rfl
    exact unfaithful_least reads
  · exact faithful

/-- The least tally is written as a sign alone. -/
theorem formatInt_unfaithful : formatInt (-9223372036854775808) = [minus] ∧ ¬Faithful (-9223372036854775808) :=
  ⟨formatInt_least, unfaithful_least⟩

example : formatInt (-1234567) = [45, 49, 44, 50, 51, 52, 44, 53, 54, 55] := by decide +kernel

end Tallies
end FromScratch.Proofs.CounterText
