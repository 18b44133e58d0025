import FromScratch.MapReduce.Protocol

/-! How a tally is written. -/

namespace FromScratch.MapReduce.Counters

theorem toInt_div_ten {v : Int64} (positive : 0 < v) : (v / 10).toInt = v.toInt / 10 := by
  have nonneg : 0 ≤ v.toInt := Int.le_of_lt (Int64.lt_iff_toInt_lt.mp positive)
  rw [Int64.toInt_div_of_ne_right v 10 (by decide)]
  exact Int.tdiv_eq_ediv_of_nonneg nonneg

/-- The loop of `formatInt`: `count` digits are in `digits`, the last digit first. -/
def formatDigits (v : Int64) (count : Nat) (digits : GoString) : GoString :=
  if 0 < v then
    let digits := if 0 < count ∧ count % 3 = 0 then digits ++ [44] else digits
    formatDigits (v / 10) (count + 1) (digits ++ [(48 + v % 10).toInt8.toUInt8])
  else digits
termination_by v.toInt.toNat
decreasing_by
  rename_i above
  have positive : 0 < v.toInt := Int64.lt_iff_toInt_lt.mp above
  rw [toInt_div_ten above]
  omega

def formatInt (v : Int64) : GoString :=
  if v = 0 then [48]
  else
    let negative := v < 0
    let v := if negative then -v else v
    let digits := formatDigits v 0 []
    let digits := if negative then digits ++ [45] else digits
    digits.reverse

end FromScratch.MapReduce.Counters
