import Mathlib.Data.List.Lex
import Mathlib.Order.Basic
import Mathlib.Order.Defs.LinearOrder
import Mathlib.Algebra.Ring.Int.Defs
import Mathlib.Algebra.Ring.Nat

/-! A Go string is a sequence of bytes that need not be UTF-8. Comparison is
bytewise, and ranging over one decodes it rune by rune, replacing a byte that
starts no valid encoding by U+FFFD. -/

namespace FromScratch.MapReduce

scoped instance linearOrderUInt8 : LinearOrder UInt8 where
  le_refl := UInt8.le_refl
  le_trans _ _ _ := UInt8.le_trans
  lt_iff_le_not_ge _ _ := by
    simp only [UInt8.lt_iff_toNat_lt, UInt8.le_iff_toNat_le]
    omega
  le_antisymm _ _ := UInt8.le_antisymm
  le_total := UInt8.le_total
  toDecidableLE := inferInstance
  toDecidableEq := inferInstance
  toDecidableLT := inferInstance
  compare_eq_compareOfLessAndEq _ _ := rfl

abbrev GoString := List UInt8

namespace GoString

/-- `utf8.RuneError`. -/
def runeError : Char := '\uFFFD'

def decodeRune (s : GoString) : Option Char := s.toByteArray.utf8DecodeChar? 0

/-- `for _, c := range s`: the second argument counts the bytes of the current
rune that are still to be skipped. -/
def runesFrom : GoString → Nat → List Char
  | [], _ => []
  | _ :: rest, skip + 1 => runesFrom rest skip
  | byte :: rest, 0 =>
    match decodeRune (byte :: rest) with
    | some c => c :: runesFrom rest (c.utf8Size - 1)
    | none => runeError :: runesFrom rest 0

def runes (s : GoString) : List Char := runesFrom s 0

/-- `strings.Builder.WriteRune` for every rune of the list. -/
def writeRunes (cs : List Char) : GoString := cs.flatMap String.utf8EncodeChar

/-- `utf8.ValidString`: the bytes are an encoding of some sequence of runes. -/
def ValidUtf8 (s : GoString) : Prop := ∃ cs, s = writeRunes cs

end GoString
end FromScratch.MapReduce
