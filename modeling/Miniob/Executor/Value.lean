import Miniob.Storage.Bytes

/-!
Tuple cells as the executor compares them (`sql/executor/value.h`).

`IntValue::compare` returns `value_ - other.value_`. The subtraction is on C `int`s: the
compiled code computes it modulo `2^32` and reads the result as signed, which is what
`BitVec 32` subtraction and `BitVec.toInt` do. The difference therefore has the sign of the
mathematical difference exactly when that difference fits in 32 bits
(`toInt_compare_of_fits`); otherwise it is off by one period, `2^32` (`toInt_compare`), and
the order `compare` describes is neither the integers' order nor transitive.
-/

namespace Miniob

/-- `IntValue`: a tuple cell holding a C `int`, and its null flag. -/
structure IntValue where
  value : BitVec 32
  isNull : Bool
  deriving DecidableEq, Repr

namespace IntValue

/-- `IntValue::compare(other)` against another `IntValue`: `-1` when either side is null,
else `value_ - int_other.value_` in 32-bit arithmetic. -/
def compare (a b : IntValue) : BitVec 32 :=
  if a.isNull || b.isNull then -1 else a.value - b.value

variable {a b : IntValue}

/-- The result of comparing two non-null cells: their difference, shifted back into the
32-bit range by one period when it does not fit. -/
theorem toInt_compare (ha : a.isNull = false) (hb : b.isNull = false) :
    (a.compare b).toInt =
      if a.value.toInt - b.value.toInt < -2 ^ 31 then a.value.toInt - b.value.toInt + 2 ^ 32
      else if 2 ^ 31 ≤ a.value.toInt - b.value.toInt then a.value.toInt - b.value.toInt - 2 ^ 32
      else a.value.toInt - b.value.toInt := by
  have ra := toInt_mem_range a.value
  have rb := toInt_mem_range b.value
  rw [compare, ha, hb, Bool.or_false, if_neg Bool.false_ne_true, BitVec.toInt_sub, Int.bmod_def]
  split_ifs <;> omega

/-- When the difference fits in 32 bits, `compare` returns it, so its sign orders the two
values as integers. -/
theorem toInt_compare_of_fits (ha : a.isNull = false) (hb : b.isNull = false)
    (lo : -2 ^ 31 ≤ a.value.toInt - b.value.toInt) (hi : a.value.toInt - b.value.toInt < 2 ^ 31) :
    (a.compare b).toInt = a.value.toInt - b.value.toInt := by
  rw [toInt_compare ha hb, if_neg (by omega), if_neg (by omega)]

end IntValue

/-- `INT_MIN` as a non-null cell. -/
def intMinCell : IntValue := ⟨BitVec.ofInt 32 (-2147483648), false⟩

/-- `1` as a non-null cell. -/
def oneCell : IntValue := ⟨1, false⟩

/-- `0` as a non-null cell. -/
def zeroCell : IntValue := ⟨0, false⟩

/-- `INT_MIN` compared with `1`: the difference overflows and `compare` reports
`INT_MIN > 1`, while `INT_MIN < 0` and `0 < 1`: the order is wrong and not transitive. -/
theorem compare_intMin_one :
    intMinCell.value.toInt < oneCell.value.toInt ∧ 0 < (intMinCell.compare oneCell).toInt ∧
      (intMinCell.compare zeroCell).toInt < 0 ∧ (zeroCell.compare oneCell).toInt < 0 := by
  decide

end Miniob
