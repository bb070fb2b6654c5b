import Mathlib.Data.Nat.Digits
import Miniob.Storage.Bytes

/-!
`number_to_str` (`sql/parser/parse.cpp`), which the grammar uses to turn the number in
`COUNT(<number>)` back into text.

The C function writes a minus sign for a negative number and negates it (in 32 bits, so
`INT_MIN` stays negative), then its loop emits `number % 10 + '0'` and divides by ten until
the number is zero, and copies the digits in the order they were emitted. That order is
least significant first (`numberDigits_eq_digits`): `number_to_str` prints the digits of
every number other than `INT_MIN` reversed (`numberToStr_eq_reverse`), where `printf("%d")`
prints them most significant first (`decimalNumeral`). The two agree exactly on the numbers
whose digits read the same both ways (`numberToStr_eq_decimalNumeral_iff`).
-/

namespace Miniob

/-- The character `'0' + d`. -/
def digitByte (d : Nat) : UInt8 := (48 + d).toUInt8

/-- The numeral `printf("%d", n)` prints: a minus sign for a negative number, then the
decimal digits of its magnitude, most significant first; `0` for zero. -/
def decimalNumeral (n : Int) : Bytes :=
  if n = 0 then [48]
  else (if n < 0 then [45] else []) ++ (Nat.digits 10 n.natAbs).reverse.map digitByte

/-- `number_to_str`'s loop `while (number != 0) { s[idx++] = number % 10 + '0'; number /= 10; }`,
with C's truncating `%` and `/`, for at most `fuel` turns: ten cover every `int`. -/
def numberDigits : Nat → Int → Bytes
  | 0, _ => []
  | fuel + 1, number =>
      if number = 0 then []
      else (number.tmod 10 + 48).toNat.toUInt8 :: numberDigits fuel (number.tdiv 10)

/-- `number_to_str(number)`: the characters of the string it returns. -/
def numberToStr (number : BitVec 32) : Bytes :=
  if number = 0 then [48]
  else if number.toInt < 0 then [45] ++ numberDigits 10 (-number).toInt
  else numberDigits 10 number.toInt

/-- The loop emits the decimal digits of a natural number least significant first, given
enough turns. -/
theorem numberDigits_eq_digits : ∀ (fuel m : Nat), m < 10 ^ fuel →
    numberDigits fuel m = (Nat.digits 10 m).map digitByte
  | 0, m, hm => by
    obtain rfl : m = 0 := by simpa using hm
    simp [numberDigits]
  | fuel + 1, m, hm => by
    rcases Nat.eq_zero_or_pos m with rfl | pos
    · simp [numberDigits]
    have rest := numberDigits_eq_digits fuel (m / 10) (by rw [Nat.pow_succ] at hm; omega)
    rw [numberDigits, if_neg (by omega), show (m : Int).tmod 10 = ((m % 10 : Nat) : Int) from rfl,
      show (m : Int).tdiv 10 = ((m / 10 : Nat) : Int) from rfl, rest,
      Nat.digits_def' (by norm_num) pos, List.map_cons]
    congr 1
    simp only [digitByte, Nat.add_comm 48]
    rfl

/-- For every `int` other than `INT_MIN`, `number_to_str` prints the sign and then the
digits of the magnitude least significant first: the numeral's digits reversed. -/
theorem numberToStr_eq_reverse (n : BitVec 32) (hn : n.toInt ≠ -2 ^ 31) :
    numberToStr n = if n = 0 then [48]
      else (if n.toInt < 0 then [45] else []) ++ (Nat.digits 10 n.toInt.natAbs).map digitByte := by
  obtain ⟨lo, hi⟩ := toInt_mem_range n
  have fits : n.toInt.natAbs < 10 ^ 10 := by omega
  unfold numberToStr
  split_ifs with zero neg
  · rfl
  · have negated : (-n).toInt = n.toInt.natAbs := by
      rw [BitVec.toInt_neg, Int.bmod_def]
      split <;> omega
    rw [negated, numberDigits_eq_digits 10 _ fits]
  · rw [← numberDigits_eq_digits 10 _ fits, Int.natAbs_of_nonneg (by omega), List.nil_append]

theorem toNat_digitByte {d : Nat} (hd : d < 10) : (digitByte d).toNat = 48 + d :=
  UInt8.toNat_ofNat_of_lt (show 48 + d < 256 by omega)

/-- Digits are told apart by their characters. -/
theorem map_digitByte_inj {l l' : List Nat} (h : ∀ d ∈ l, d < 10) (h' : ∀ d ∈ l', d < 10) :
    l.map digitByte = l'.map digitByte ↔ l = l' := by
  refine ⟨fun e => ?_, congrArg _⟩
  have codes := congrArg (List.map UInt8.toNat) e
  simp only [List.map_map, Function.comp_def] at codes
  rw [List.map_congr_left fun d hd => toNat_digitByte (h d hd),
    List.map_congr_left fun d hd => toNat_digitByte (h' d hd)] at codes
  exact List.map_injective_iff.2 (add_right_injective 48) codes

/-- `number_to_str` prints what `printf("%d")` prints exactly for the numbers whose decimal
digits read the same both ways, `INT_MIN` apart. -/
theorem numberToStr_eq_decimalNumeral_iff (n : BitVec 32) (hn : n.toInt ≠ -2 ^ 31) :
    numberToStr n = decimalNumeral n.toInt ↔
      (Nat.digits 10 n.toInt.natAbs).reverse = Nat.digits 10 n.toInt.natAbs := by
  have small : ∀ d ∈ Nat.digits 10 n.toInt.natAbs, d < 10 := fun d hd =>
    Nat.digits_lt_base (by norm_num) hd
  rw [numberToStr_eq_reverse n hn, decimalNumeral]
  by_cases zero : n = 0
  · subst zero
    simp
  · have nonzero : n.toInt ≠ 0 := fun h => zero (BitVec.toInt_inj.1 (by simpa using h))
    rw [if_neg zero, if_neg nonzero, List.append_cancel_left_eq,
      map_digitByte_inj small fun d hd => small d (List.mem_reverse.1 hd), eq_comm]

/-- `121` is printed right, its digits reading the same both ways. -/
theorem numberToStr_eq_decimalNumeral_iff_121 :
    (121 : BitVec 32).toInt ≠ -2 ^ 31 ∧
      (numberToStr 121 = decimalNumeral (121 : BitVec 32).toInt ↔
        (Nat.digits 10 (121 : BitVec 32).toInt.natAbs).reverse =
          Nat.digits 10 (121 : BitVec 32).toInt.natAbs) :=
  ⟨by decide, numberToStr_eq_decimalNumeral_iff 121 (by decide)⟩

/-- `number_to_str(12)` is the string `"21"`, where `printf("%d", 12)` prints `"12"`. -/
theorem numberToStr_twelve : numberToStr 12 = [50, 49] ∧ decimalNumeral 12 = [49, 50] := by
  refine ⟨by decide, ?_⟩
  simp [decimalNumeral, digitByte]
  decide

end Miniob
