import Mathlib.Algebra.Ring.Nat
import Mathlib.Data.List.Basic
import Mathlib.Data.Nat.Basic
import Mathlib.Order.Basic

/-! Decimal numerals as bytes: what one stands for, integer literals, and numerals
written from the first digit on, or from the last with a comma after every three. -/

namespace FromScratch.Lib.Decimal

def IsDigit (byte : UInt8) : Prop := 48 ≤ byte.toNat ∧ byte.toNat ≤ 57

instance (byte : UInt8) : Decidable (IsDigit byte) := inferInstanceAs (Decidable (_ ∧ _))

def comma : UInt8 := 44

def minus : UInt8 := 45

def value (digits : List UInt8) : Nat := digits.foldl (fun value digit => value * 10 + (digit.toNat - 48)) 0

theorem value_concat (digits : List UInt8) (digit : UInt8) :
    value (digits ++ [digit]) = value digits * 10 + (digit.toNat - 48) := List.foldl_concat ..

/-- An optional sign before digits, and the integer that is. -/
inductive Literal : List UInt8 → Int → Prop
  | plain {digits : List UInt8} (filled : digits ≠ []) (only : ∀ digit ∈ digits, IsDigit digit) :
      Literal digits (value digits)
  | positive {digits : List UInt8} (filled : digits ≠ []) (only : ∀ digit ∈ digits, IsDigit digit) :
      Literal (43 :: digits) (value digits)
  | negative {digits : List UInt8} (filled : digits ≠ []) (only : ∀ digit ∈ digits, IsDigit digit) :
      Literal (minus :: digits) (-value digits)

/-- Digits with a comma before each complete three from the right, and none at the front. -/
def Grouped (body : List UInt8) : Prop := ∃ (head : List UInt8) (threes : List (List UInt8)),
  body = head ++ threes.flatMap (comma :: ·) ∧ 1 ≤ head.length ∧ head.length ≤ 3 ∧
    (∀ three ∈ threes, three.length = 3) ∧ ∀ digit ∈ head ++ threes.flatten, IsDigit digit

section Separated

def digit (n : Nat) : UInt8 := UInt8.ofNat (48 + n % 10)

theorem digit_toNat (n : Nat) : (digit n).toNat = 48 + n % 10 := by
  rw [digit, UInt8.toNat_ofNat']
  exact Nat.mod_eq_of_lt (by omega)

theorem digit_isDigit (n : Nat) : IsDigit (digit n) := by
  rw [IsDigit, digit_toNat]
  omega

theorem IsDigit.ne_comma {byte : UInt8} (digit : IsDigit byte) : byte ≠ comma := by
  rintro rfl
  exact absurd digit.1 (by decide)

/-- The digits of a number from the last on, with commas, when so many are written already. -/
def separated (n count : Nat) : List UInt8 :=
  if n = 0 then []
  else (if 0 < count ∧ count % 3 = 0 then [comma] else []) ++ digit n :: separated (n / 10) (count + 1)
termination_by n
decreasing_by exact Nat.div_lt_self (by omega) (by omega)

theorem separated_zero (count : Nat) : separated 0 count = [] := by rw [separated, if_pos rfl]

theorem separated_pos {n : Nat} (positive : n ≠ 0) (count : Nat) : separated n count =
    (if 0 < count ∧ count % 3 = 0 then [comma] else []) ++ digit n :: separated (n / 10) (count + 1) := by
  rw [separated, if_neg positive]

/-- The count matters up to threes. -/
theorem separated_add_three (n : Nat) {count : Nat} (begun : 0 < count) : separated n (count + 3) = separated n count := by
  induction n using Nat.strong_induction_on generalizing count with
  | _ n ih =>
    rcases eq_or_ne n 0 with rfl | positive
    · rw [separated_zero, separated_zero]
    · rw [separated_pos positive, separated_pos positive, Nat.add_mod_right, Nat.add_right_comm,
        ih (n / 10) (Nat.div_lt_self (by omega) (by omega)) (Nat.succ_pos count)]
      simp only [begun, true_and, show 0 < count + 3 by omega]

theorem separated_three {n : Nat} (positive : n ≠ 0) : separated n 3 = comma :: separated n 0 := by
  rw [separated_pos positive, separated_pos positive]
  exact congrArg (comma :: digit n :: ·) (separated_add_three (n / 10) Nat.one_pos)

def plain (text : List UInt8) : List UInt8 := text.filter (· ≠ comma)

theorem plain_digits {digits : List UInt8} (only : ∀ digit ∈ digits, IsDigit digit) : plain digits = digits :=
  List.filter_eq_self.mpr fun digit member => decide_eq_true (only digit member).ne_comma

theorem plain_separated (n count : Nat) :
    plain (separated n count) = if n = 0 then [] else digit n :: plain (separated (n / 10) (count + 1)) := by
  rcases eq_or_ne n 0 with rfl | positive
  · rw [separated_zero]
    rfl
  · rw [separated_pos positive, if_neg positive, plain, List.filter_append, List.filter_cons,
      if_pos (decide_eq_true (digit_isDigit n).ne_comma)]
    split <;> rfl

/-- Without its commas it is the number. -/
theorem value_separated (n count : Nat) : value (plain (separated n count)).reverse = n := by
  induction n using Nat.strong_induction_on generalizing count with
  | _ n ih =>
    rw [plain_separated]
    split
    next zero => rw [zero]; rfl
    next positive =>
      rw [List.reverse_cons, value_concat, ih (n / 10) (Nat.div_lt_self (by omega) (by omega)), digit_toNat]
      omega

theorem separated_digits (n count : Nat) : ∀ byte ∈ plain (separated n count), IsDigit byte := by
  induction n using Nat.strong_induction_on generalizing count with
  | _ n ih =>
    rw [plain_separated]
    split
    next => nofun
    next positive => exact List.forall_mem_cons.mpr ⟨digit_isDigit n, ih (n / 10) (Nat.div_lt_self (by omega) (by omega)) _⟩

theorem Grouped.append {body three : List UInt8} (grouped : Grouped body) (size : three.length = 3)
    (only : ∀ digit ∈ three, IsDigit digit) : Grouped (body ++ comma :: three) := by
  obtain ⟨head, threes, rfl, filled, few, sizes, digits⟩ := grouped
  refine ⟨head, threes ++ [three], by simp, filled, few, ?_, ?_⟩
  · exact List.forall_mem_append.mpr ⟨sizes, List.forall_mem_singleton.mpr size⟩
  · rw [List.flatten_append, List.flatten_singleton, ← List.append_assoc]
    exact List.forall_mem_append.mpr ⟨digits, only⟩

theorem grouped_separated {n : Nat} (positive : n ≠ 0) : Grouped (separated n 0).reverse := by
  induction n using Nat.strong_induction_on with
  | _ n ih =>
    have head {digits : List UInt8} (body : separated n 0 = digits) (one : 1 ≤ digits.length) (few : digits.length ≤ 3)
        (only : ∀ digit ∈ digits, IsDigit digit) : Grouped (separated n 0).reverse := by
      refine ⟨digits.reverse, [], by simp [body], by simpa using one, by simpa using few, nofun, ?_⟩
      simpa using only
    have first : separated n 0 = digit n :: separated (n / 10) 1 := separated_pos positive 0
    rcases eq_or_ne (n / 10) 0 with ends | second
    · rw [ends, separated_zero] at first
      exact head first (by simp) (by simp) (by simp [digit_isDigit])
    have tens : separated (n / 10) 1 = digit (n / 10) :: separated (n / 10 / 10) 2 := separated_pos second 1
    rw [tens] at first
    rcases eq_or_ne (n / 10 / 10) 0 with ends | third
    · rw [ends, separated_zero] at first
      exact head first (by simp) (by simp) (by simp [digit_isDigit])
    have hundreds : separated (n / 10 / 10) 2 = digit (n / 10 / 10) :: separated (n / 10 / 10 / 10) 3 := separated_pos third 2
    rw [hundreds] at first
    rcases eq_or_ne (n / 10 / 10 / 10) 0 with ends | more
    · rw [ends, separated_zero] at first
      exact head first (by simp) (by simp) (by simp [digit_isDigit])
    · have three : ∀ byte ∈ [digit (n / 10 / 10), digit (n / 10), digit n], IsDigit byte := by simp [digit_isDigit]
      have rest := (ih (n / 10 / 10 / 10) (by omega) more).append rfl three
      rw [first, separated_three more]
      simpa using rest

end Separated

section Numeral

/-- The digits of a number, its first digits left out if there are more than so many. -/
def numeralFrom : Nat → Nat → List UInt8
  | 0, _ => []
  | size + 1, n => if n < 10 then [digit n] else numeralFrom size (n / 10) ++ [digit n]

def numeral (n : Nat) : List UInt8 := numeralFrom (n + 1) n

theorem numeralFrom_value {size n : Nat} (fits : n < size) : value (numeralFrom size n) = n := by
  induction size generalizing n with
  | zero => omega
  | succ size ih =>
    rw [numeralFrom]
    split
    next small => simp only [value, List.foldl_cons, List.foldl_nil, digit_toNat]; omega
    next large =>
      rw [value_concat, ih (by omega), digit_toNat]
      omega

theorem numeralFrom_digits (size n : Nat) : ∀ byte ∈ numeralFrom size n, IsDigit byte := by
  induction size generalizing n with
  | zero => nofun
  | succ size ih =>
    rw [numeralFrom]
    split
    · exact List.forall_mem_singleton.mpr (digit_isDigit n)
    · exact List.forall_mem_append.mpr ⟨ih _, List.forall_mem_singleton.mpr (digit_isDigit n)⟩

theorem numeralFrom_length (size : Nat) {n digits : Nat} (below : n < 10 ^ digits) (positive : 1 ≤ digits) :
    (numeralFrom size n).length ≤ digits := by
  induction size generalizing n digits with
  | zero => exact Nat.zero_le _
  | succ size ih =>
    rw [numeralFrom]
    split
    · exact positive
    next large =>
      obtain ⟨fewer, rfl⟩ : ∃ fewer, digits = fewer + 1 := ⟨digits - 1, by omega⟩
      have more : 1 ≤ fewer := by
        rcases Nat.eq_zero_or_pos fewer with rfl | more
        · omega
        · exact more
      have rest := ih (Nat.div_lt_of_lt_mul (by rwa [Nat.pow_succ, Nat.mul_comm] at below)) more
      rw [List.length_append, List.length_singleton]
      omega

theorem value_numeral (n : Nat) : value (numeral n) = n := numeralFrom_value (Nat.lt_succ_self n)

theorem numeral_digits (n : Nat) : ∀ byte ∈ numeral n, IsDigit byte := numeralFrom_digits _ n

theorem numeral_ne_nil (n : Nat) : numeral n ≠ [] := by
  rw [numeral, numeralFrom]
  split
  · exact List.cons_ne_nil _ _
  · exact List.append_ne_nil_of_right_ne_nil _ (List.cons_ne_nil _ _)

theorem numeral_length {n digits : Nat} (below : n < 10 ^ digits) (positive : 1 ≤ digits) : (numeral n).length ≤ digits :=
  numeralFrom_length _ below positive

end Numeral
end FromScratch.Lib.Decimal
