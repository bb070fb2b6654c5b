import Mathlib.Algebra.Field.Rat
import Mathlib.Data.List.DropRight
import Miniob.Parse.Date

/-!
`FloatValue::to_string` (`sql/executor/value.h`): a `FLOATS` cell printed with two
decimals, then trimmed.

The C function prints the value with `sprintf(ftos, "%.2f", value_)`, walks back from the
last character over every `'0'` (`while (ftos[s_end] == '0') --s_end;`), and cuts the string
at the character it stopped on when that is the point, just after it otherwise. `sprintf`
belongs to libc, not to `src/`: the model starts from the characters it wrote
(`FloatValue.toString`).

A finite `float` prints as `-?[0-9]+\.[0-9][0-9]` (`FixedPointText`), a decimal numeral
with a point (`DecimalNumeral`). On every numeral with a point the loop stops at its last
fractional digit other than `'0'`, or at the point, never left of it
(`skipTrailingZeros_dotted`). The string printed is then the numeral with its trailing
fractional zeros dropped, and the point with them when no fractional digit remains
(`toString_text`); it denotes the same number (`readDecimal_text`,
`value_trimFraction`) and ends in neither the point nor a fractional `'0'`. `inf`, `nan`,
`-inf` and `-nan` end in no `'0'` and print unchanged (`toString_trims_fraction`).
-/

namespace Miniob

/-! ### The code -/

/-- `while (ftos[s_end] == '0') --s_end;` from `s_end`: where the loop stops, or `none`
when it would go on to read `ftos[-1]`. -/
def skipTrailingZeros (ftos : Bytes) : Nat → Option Nat
  | 0 => if ftos.getD 0 0 = 48 then none else some 0
  | sEnd + 1 => if ftos.getD (sEnd + 1) 0 = 48 then skipTrailingZeros ftos sEnd else some (sEnd + 1)

/-- `FloatValue::to_string(os)`: the characters it writes, from the characters `ftos` that
`sprintf(ftos, "%.2f", value_)` wrote; `none` where the code reads before the buffer. -/
def FloatValue.toString (ftos : Bytes) : Option Bytes :=
  if ftos = [] then none
  else (skipTrailingZeros ftos (ftos.length - 1)).map fun sEnd =>
    if ftos.getD sEnd 0 = 46 then ftos.take sEnd else ftos.take (sEnd + 1)

section Loop

variable {ftos : Bytes}

theorem skipTrailingZeros_of_ne {i : Nat} (h : ftos.getD i 0 ≠ 48) :
    skipTrailingZeros ftos i = some i := by
  cases i <;> exact if_neg h

theorem skipTrailingZeros_succ_of_eq {i : Nat} (h : ftos.getD (i + 1) 0 = 48) :
    skipTrailingZeros ftos (i + 1) = skipTrailingZeros ftos i :=
  if_pos h

/-- The loop reads nothing right of where it starts. -/
theorem skipTrailingZeros_append (t : Bytes) : ∀ {i : Nat}, i < ftos.length →
    skipTrailingZeros (ftos ++ t) i = skipTrailingZeros ftos i
  | 0, h => by simp only [skipTrailingZeros, List.getD_append _ _ _ _ h]
  | i + 1, h => by
    simp only [skipTrailingZeros, List.getD_append _ _ _ _ h,
      skipTrailingZeros_append t (Nat.lt_of_succ_lt h)]

end Loop

/-- On `pre ++ '.' :: frac`, the loop started at the last character stops at the last
fractional digit other than `'0'`, or at the point when there is none. -/
theorem skipTrailingZeros_dotted (pre frac : Bytes) :
    skipTrailingZeros (pre ++ 46 :: frac) (pre.length + frac.length) =
      some (pre.length + (frac.rdropWhile (· == 48)).length) := by
  induction frac using List.reverseRecOn with
  | nil => exact skipTrailingZeros_of_ne (by simp [List.getD_append_right])
  | append_singleton frac x ih =>
    have split : pre ++ 46 :: (frac ++ [x]) = (pre ++ 46 :: frac) ++ [x] := by simp
    have last : (pre ++ 46 :: (frac ++ [x])).getD (pre.length + frac.length + 1) 0 = x := by
      rw [split, List.getD_append_right _ _ _ _ (by simp; omega)]
      simp [Nat.add_assoc]
    rw [List.length_append, List.length_singleton, ← Nat.add_assoc]
    by_cases zero : x = 48
    · subst zero
      rw [skipTrailingZeros_succ_of_eq last, split, skipTrailingZeros_append _ (by simp), ih,
        List.rdropWhile_concat_pos _ _ _ rfl]
    · rw [skipTrailingZeros_of_ne (by rw [last]; exact zero),
        List.rdropWhile_concat_neg _ _ _ (by simpa using zero)]
      simp [Nat.add_assoc]

/-! ### Decimal numerals -/

theorem decimalValue_concat (s : Bytes) (c : UInt8) :
    decimalValue (s ++ [c]) = 10 * decimalValue s + (c.toNat - 48) := by
  simp [decimalValue, List.foldl_append]

/-- Dropping trailing `'0'` digits keeps the fraction a run of digits denotes. -/
theorem fraction_rdropWhile (frac : Bytes) :
    (decimalValue (frac.rdropWhile (· == 48)) : ℚ) / 10 ^ (frac.rdropWhile (· == 48)).length =
      decimalValue frac / 10 ^ frac.length := by
  induction frac using List.reverseRecOn with
  | nil => rfl
  | append_singleton frac x ih =>
    by_cases zero : x = 48
    · subst zero
      rw [List.rdropWhile_concat_pos _ _ _ rfl, ih, decimalValue_concat,
        show (48 : UInt8).toNat - 48 = 0 from rfl, Nat.add_zero, List.length_append,
        List.length_singleton, pow_succ, Nat.cast_mul, mul_comm _ (10 : ℚ)]
      exact (mul_div_mul_left _ _ (by norm_num)).symm
    · rw [List.rdropWhile_concat_neg _ _ _ (by simpa using zero)]

/-- A decimal numeral `-?[0-9]+(\.[0-9]+)?`: its sign, its integer digits and its
fractional digits, written with a point exactly when there is a fractional digit. -/
structure DecimalNumeral where
  negative : Bool
  whole : Bytes
  frac : Bytes
  whole_ne_nil : whole ≠ []
  digits : ∀ c ∈ whole ++ frac, isDigit c = true

/-- What `%.2f` prints for a finite `float`: `-?[0-9]+\.[0-9][0-9]`. -/
structure FixedPointText extends DecimalNumeral where
  two_places : frac.length = 2

/-- What `%.2f` prints for an infinite `float` or a NaN: `inf`, `nan`, `-inf`, `-nan`. -/
def nonFiniteTexts : List Bytes :=
  [[105, 110, 102], [110, 97, 110], [45, 105, 110, 102], [45, 110, 97, 110]]

/-- The number a string denotes when it is a decimal numeral `-?[0-9]+(\.[0-9]+)?`, and
`none` for any other string. -/
def readDecimal (s : Bytes) : Option ℚ :=
  let negative := s.head? == some 45
  let body := if negative then s.tail else s
  let whole := body.takeWhile isDigit
  let sign : ℚ := if negative then -1 else 1
  match body.dropWhile isDigit with
  | [] => if whole = [] then none else some (sign * decimalValue whole)
  | c :: frac =>
    if c = 46 ∧ whole ≠ [] ∧ frac ≠ [] ∧ frac.all isDigit = true then
      some (sign * (decimalValue whole + decimalValue frac / 10 ^ frac.length))
    else none

namespace DecimalNumeral

variable (n : DecimalNumeral)

/-- The sign and the integer digits: what stands before the point. -/
def integerPart : Bytes := (if n.negative then [45] else []) ++ n.whole

/-- The numeral's characters. -/
def text : Bytes := n.integerPart ++ if n.frac = [] then [] else 46 :: n.frac

/-- The number the numeral denotes. -/
def value : ℚ :=
  (if n.negative then -1 else 1) *
    (decimalValue n.whole + decimalValue n.frac / 10 ^ n.frac.length)

/-- The numeral with its trailing fractional zeros removed, and so without its point when
no fractional digit remains. -/
def trimFraction : DecimalNumeral :=
  { n with
    frac := n.frac.rdropWhile (· == 48)
    digits := fun c hc => n.digits c <| by
      rcases List.mem_append.1 hc with h | h
      · exact List.mem_append_left _ h
      · exact List.mem_append_right _ ((List.rdropWhile_prefix _ _).subset h) }

theorem text_of_ne_nil {n : DecimalNumeral} (h : n.frac ≠ []) :
    n.text = n.integerPart ++ 46 :: n.frac := by
  rw [text, if_neg h]

theorem integerPart_trimFraction : n.trimFraction.integerPart = n.integerPart := rfl

/-! ### The number a numeral denotes -/

/-- Trimming keeps the number. -/
theorem value_trimFraction : n.trimFraction.value = n.value := by
  unfold value
  rw [show n.trimFraction.frac = n.frac.rdropWhile (· == 48) from rfl, fraction_rdropWhile]
  rfl

/-- A numeral reads back as the number it denotes. -/
theorem readDecimal_text : readDecimal n.text = some n.value := by
  obtain ⟨c, rest, hc⟩ := List.exists_cons_of_ne_nil n.whole_ne_nil
  have first : isDigit c = true := n.digits c (by simp [hc])
  have digits : ∀ a ∈ n.whole, isDigit a = true := fun a ha => n.digits a (List.mem_append_left _ ha)
  have negative : (n.text.head? == some 45) = n.negative := by
    cases hneg : n.negative <;> simp [text, integerPart, hneg, hc, ne_dash_of_isDigit first]
  have body : (if n.negative then n.text.tail else n.text) =
      n.whole ++ if n.frac = [] then [] else 46 :: n.frac := by
    cases hneg : n.negative <;> simp [text, integerPart, hneg]
  simp only [readDecimal, negative, body, List.takeWhile_append_of_pos digits,
    List.dropWhile_append_of_pos digits]
  by_cases h : n.frac = []
  · simp [h, n.whole_ne_nil, value, show decimalValue [] = 0 from rfl]
  · have fracDigits : n.frac.all isDigit = true :=
      List.all_eq_true.2 fun a ha => n.digits a (List.mem_append_right _ ha)
    simp [h, n.whole_ne_nil, value, fracDigits, show isDigit 46 = false from rfl]

/-! ### How a numeral ends -/

theorem dot_mem_text_iff : 46 ∈ n.text ↔ n.frac ≠ [] := by
  by_cases h : n.frac = []
  · have : 46 ∉ n.whole := fun hm => absurd (n.digits 46 (List.mem_append_left _ hm)) (by decide)
    cases n.negative <;> simp [text, integerPart, h, this]
  · simp [text_of_ne_nil h, h]

/-- A numeral ends in its last fractional digit, or in its last integer digit when it has
no point. -/
theorem getLast?_text : n.text.getLast? = (if n.frac = [] then n.whole else n.frac).getLast? := by
  by_cases h : n.frac = []
  · simp [text, integerPart, h, List.getLast?_eq_getLast _ n.whole_ne_nil]
  · simp [text_of_ne_nil h, h, List.getLast?_cons, List.getLast?_eq_getLast _ h]

/-- A numeral never ends in its point. -/
theorem getLast?_text_ne_dot : n.text.getLast? ≠ some 46 := fun e => by
  rw [getLast?_text] at e
  have digit := n.digits 46 (by split_ifs at e <;> simp [List.mem_of_getLast?_eq_some e])
  exact absurd digit (by decide)

/-- Trimmed, a numeral with a point does not end in `'0'`. -/
theorem getLast?_trimFraction_ne_zero (dot : 46 ∈ n.trimFraction.text) :
    n.trimFraction.text.getLast? ≠ some 48 := fun e => by
  have h := (dot_mem_text_iff _).1 dot
  rw [getLast?_text, if_neg h, List.getLast?_eq_getLast _ h] at e
  exact List.rdropWhile_last_not (· == 48) n.frac h (beq_iff_eq.2 (Option.some.inj e))

/-! ### Printing a numeral with a point -/

variable {n}

/-- The point stands right after the integer part. -/
theorem getD_text_dot (h : n.frac ≠ []) : n.text.getD n.integerPart.length 0 = 46 := by
  rw [text_of_ne_nil h, List.getD_append_right _ _ _ _ le_rfl, Nat.sub_self, List.getD_cons_zero]

/-- On a numeral with a point the loop stops at its last fractional digit other than `'0'`,
or at the point: never left of it. -/
theorem skipTrailingZeros_text (h : n.frac ≠ []) :
    skipTrailingZeros n.text (n.text.length - 1) =
      some (n.integerPart.length + n.trimFraction.frac.length) := by
  rw [text_of_ne_nil h, show (n.integerPart ++ 46 :: n.frac).length - 1 =
    n.integerPart.length + n.frac.length by simp]
  exact skipTrailingZeros_dotted _ _

/-- `to_string` prints a numeral with a point with its trailing fractional zeros dropped,
and the point with them when no fractional digit remains. -/
theorem toString_text (h : n.frac ≠ []) :
    FloatValue.toString n.text = some n.trimFraction.text := by
  rw [FloatValue.toString, if_neg (by simp [text_of_ne_nil h]), skipTrailingZeros_text h,
    Option.map_some']
  congr 1
  by_cases none : n.trimFraction.frac = []
  case pos =>
    rw [none, List.length_nil, Nat.add_zero, getD_text_dot h, if_pos rfl, text_of_ne_nil h,
      List.take_left, text, if_pos none, List.append_nil, integerPart_trimFraction]
  case neg =>
    obtain ⟨rest, hrest⟩ : ∃ rest, n.trimFraction.frac ++ rest = n.frac :=
      List.rdropWhile_prefix _ _
    obtain ⟨kept, y, hy⟩ : ∃ kept y, n.trimFraction.frac = kept ++ [y] :=
      ⟨_, _, (List.dropLast_append_getLast none).symm⟩
    have dot : y ≠ 46 := fun e => absurd
      (n.trimFraction.digits y (List.mem_append_right _ (by simp [hy]))) (by rw [e]; decide)
    rw [text_of_ne_nil h, text_of_ne_nil none, integerPart_trimFraction, ← hrest, hy,
      show n.integerPart ++ 46 :: (kept ++ [y] ++ rest) = (n.integerPart ++ 46 :: kept) ++ y :: rest
        by simp,
      show n.integerPart.length + (kept ++ [y]).length = (n.integerPart ++ 46 :: kept).length
        by simp [Nat.add_assoc],
      List.getD_append_right _ _ _ _ le_rfl, Nat.sub_self, List.getD_cons_zero, if_neg dot,
      List.take_append]
    simp

/-- `100.00` prints as `100`, the point going with the zeros. -/
example : FloatValue.toString [49, 48, 48, 46, 48, 48] = some [49, 48, 48] := by decide

/-- `17.10` prints as `17.1`. -/
example : FloatValue.toString [49, 55, 46, 49, 48] = some [49, 55, 46, 49] := by decide

end DecimalNumeral

/-! ### What `%.2f` prints -/

/-- `FloatValue::to_string` on what `%.2f` prints for a finite `float`: the loop stops on
or right of the point, which stands after the integer part, and the string printed is the text with its trailing fractional
zeros dropped, and the point with them when no fractional digit remains; it denotes the
number the text denotes and ends in neither the point nor a fractional `'0'`. The texts of
the non-finite values end in no `'0'` and print unchanged. -/
theorem toString_trims_fraction :
    (∀ x : FixedPointText,
      x.text.getD x.integerPart.length 0 = 46 ∧
      (∃ sEnd, skipTrailingZeros x.text (x.text.length - 1) = some sEnd ∧
        x.integerPart.length ≤ sEnd) ∧
      FloatValue.toString x.text = some x.trimFraction.text ∧
      readDecimal x.trimFraction.text = some x.value ∧
      readDecimal x.text = some x.value ∧
      x.trimFraction.text.getLast? ≠ some 46 ∧
      (46 ∈ x.trimFraction.text → x.trimFraction.text.getLast? ≠ some 48)) ∧
    ∀ x ∈ nonFiniteTexts, skipTrailingZeros x (x.length - 1) = some (x.length - 1) ∧
      FloatValue.toString x = some x := by
  refine ⟨fun x => ?_, by decide⟩
  have dotted : x.frac ≠ [] := fun h => by simpa [h] using x.two_places
  exact ⟨DecimalNumeral.getD_text_dot dotted,
    ⟨_, DecimalNumeral.skipTrailingZeros_text dotted, Nat.le_add_right _ _⟩,
    DecimalNumeral.toString_text dotted,
    by rw [DecimalNumeral.readDecimal_text, DecimalNumeral.value_trimFraction],
    DecimalNumeral.readDecimal_text _, DecimalNumeral.getLast?_text_ne_dot _,
    DecimalNumeral.getLast?_trimFraction_ne_zero _⟩

end Miniob
