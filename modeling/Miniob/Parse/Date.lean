import Mathlib.Data.List.GetD
import Mathlib.Tactic.Ring
import Miniob.Storage.Record

/-!
What `value_init_string` makes of a date literal, and what `Table::is_legal` then accepts
(`sql/parser/parse.cpp`, `storage/common/table.cpp`).

A string matching `^\d{4}-\d{1,2}-\d{1,2}$` is a `DateLiteral`: four digits of year, one or
two of month, one or two of day, with their dashes; `check_date_format` accepts exactly these
(`checkDateFormat_iff`). On such a string `date2num`'s right to left loop adds each run of
digits at the multiplier it has reached (`date2numLoop_digits`), and its three dash rules bring
the multiplier to `100` before the month and to `10000` before the year in each of the four
layouts, so it returns `10000 * Y + 100 * M + D` (`date2num_text`).

`check_date_data_convert` then keeps `t` exactly when that number is between `19700101` and
`20380131` and the month and day pass its checks, whose leap rule is the year being divisible
by four. Between 1970 and 2038 that rule is the Gregorian one, so `t` stays `1` exactly when
the literal names a day of the calendar in the `DATE` range (`valueInitString_dateLiteral`).

A literal `value_init_string` types as `DATES` is legal for `DATES` fields only, so a string
that reads as such a day can never be stored in a `CHARS` column, however long the column
(`isLegal_stringLiteral`, `date_string_rejected_for_char_field`).

The four bytes a `DATES` value holds read back, as a C `int`, as `10000 * Y + 100 * M + D`
(`intOfBytes_valueInitString`), so two such values compare as `int`s exactly as their days
compare in the calendar (`dateValues_compare`): comparing `DATES` keys as `INTS` keys is
comparing days.
-/

namespace Miniob

/-! ### The calendar -/

/-- A leap year of the Gregorian calendar. -/
def IsLeapYear (y : Nat) : Prop := y % 4 = 0 ∧ y % 100 ≠ 0 ∨ y % 400 = 0

instance (y : Nat) : Decidable (IsLeapYear y) :=
  inferInstanceAs (Decidable (y % 4 = 0 ∧ y % 100 ≠ 0 ∨ y % 400 = 0))

/-- The number of days of month `m` of year `y`. -/
def daysInMonth (y m : Nat) : Nat :=
  if m = 2 then (if IsLeapYear y then 29 else 28)
  else if m = 4 ∨ m = 6 ∨ m = 9 ∨ m = 11 then 30
  else 31

/-- `(y, m, d)` is a day of the Gregorian calendar. -/
def IsCalendarDate (y m d : Nat) : Prop := 1 ≤ m ∧ m ≤ 12 ∧ 1 ≤ d ∧ d ≤ daysInMonth y m

instance (y m d : Nat) : Decidable (IsCalendarDate y m d) :=
  inferInstanceAs (Decidable (1 ≤ m ∧ m ≤ 12 ∧ 1 ≤ d ∧ d ≤ daysInMonth y m))

/-- Calendar order on `(year, month, day)`. -/
def DateLe (a b : Nat × Nat × Nat) : Prop :=
  a.1 < b.1 ∨ a.1 = b.1 ∧ (a.2.1 < b.2.1 ∨ a.2.1 = b.2.1 ∧ a.2.2 ≤ b.2.2)

instance (a b : Nat × Nat × Nat) : Decidable (DateLe a b) :=
  inferInstanceAs (Decidable (a.1 < b.1 ∨ a.1 = b.1 ∧ (a.2.1 < b.2.1 ∨ a.2.1 = b.2.1 ∧ a.2.2 ≤ b.2.2)))

/-- A day `DATE` columns hold: from 1970-01-01 to 2038-01-31. -/
def IsStorableDate (y m d : Nat) : Prop :=
  IsCalendarDate y m d ∧ DateLe (1970, 1, 1) (y, m, d) ∧ DateLe (y, m, d) (2038, 1, 31)

instance (y m d : Nat) : Decidable (IsStorableDate y m d) :=
  inferInstanceAs (Decidable (IsCalendarDate y m d ∧ DateLe (1970, 1, 1) (y, m, d) ∧
    DateLe (y, m, d) (2038, 1, 31)))

/-! ### Date literals -/

/-- The number a string of decimal digits spells. -/
def decimalValue (s : Bytes) : Nat :=
  s.foldl (fun n c => 10 * n + (c.toNat - 48)) 0

/-- A string matching `^\d{4}-\d{1,2}-\d{1,2}$`, by its three runs of digits. -/
structure DateLiteral where
  year : Bytes
  month : Bytes
  day : Bytes
  year_length : year.length = 4
  month_length : month.length = 1 ∨ month.length = 2
  day_length : day.length = 1 ∨ day.length = 2
  digits : ∀ c ∈ year ++ month ++ day, isDigit c = true

namespace DateLiteral

variable (l : DateLiteral)

/-- The characters of the literal. -/
def text : Bytes := l.year ++ 45 :: (l.month ++ 45 :: l.day)

theorem length_text : l.text.length = 6 + l.month.length + l.day.length := by
  simp only [text, List.length_append, List.length_cons, l.year_length]
  omega

theorem getD_text_year {j : Nat} (h : j < 4) : l.text.getD (0 + j) 0 = l.year.getD j 0 := by
  rw [text, Nat.zero_add, List.getD_append _ _ _ _ (by rw [l.year_length]; exact h)]

theorem getD_text_dash_year : l.text.getD 4 0 = 45 := by
  rw [text, List.getD_append_right _ _ _ _ l.year_length.le, l.year_length]
  rfl

theorem getD_text_month {j : Nat} (h : j < l.month.length) :
    l.text.getD (5 + j) 0 = l.month.getD j 0 := by
  rw [text, List.getD_append_right _ _ _ _ (by rw [l.year_length]; omega), l.year_length,
    show 5 + j - 4 = j + 1 by omega, List.getD_cons_succ, List.getD_append _ _ _ _ h]

theorem getD_text_dash_month : l.text.getD (5 + l.month.length) 0 = 45 := by
  rw [text, List.getD_append_right _ _ _ _ (by rw [l.year_length]; omega), l.year_length,
    show 5 + l.month.length - 4 = l.month.length + 1 by omega, List.getD_cons_succ,
    List.getD_append_right _ _ _ _ le_rfl, Nat.sub_self]
  rfl

theorem getD_text_day {j : Nat} : l.text.getD (6 + l.month.length + j) 0 = l.day.getD j 0 := by
  rw [text, List.getD_append_right _ _ _ _ (by rw [l.year_length]; omega), l.year_length,
    show 6 + l.month.length + j - 4 = (l.month.length + j + 1) + 1 by omega, List.getD_cons_succ,
    List.getD_append_right _ _ _ _ (by omega), show l.month.length + j + 1 - l.month.length = j + 1 by omega,
    List.getD_cons_succ]

end DateLiteral

theorem toNat_of_isDigit {c : UInt8} (h : isDigit c = true) : 48 ≤ c.toNat ∧ c.toNat ≤ 57 := by
  simpa [isDigit, UInt8.le_def, BitVec.le_def] using h

theorem ne_dash_of_isDigit {c : UInt8} (h : isDigit c = true) : c ≠ 45 := by
  rintro rfl
  exact absurd h (by decide)

theorem lt_128_of_isDigit {c : UInt8} (h : isDigit c = true) : c < 128 := by
  have := toNat_of_isDigit h
  simp only [UInt8.lt_def, BitVec.lt_def]
  exact Nat.lt_of_le_of_lt this.2 (by decide)

/-- A run of `n` digits spells a number below `10 ^ n`. -/
theorem decimalValue_lt (s : Bytes) (h : ∀ c ∈ s, isDigit c = true) :
    decimalValue s < 10 ^ s.length := by
  induction s using List.reverseRecOn with
  | nil => decide
  | append_singleton s c ih =>
    have hc := toNat_of_isDigit (h c (by simp))
    have hs := ih fun x hx => h x (by simp [hx])
    simp only [decimalValue, List.foldl_append, List.foldl_cons, List.foldl_nil,
      List.length_append, List.length_singleton, Nat.pow_succ] at hs ⊢
    omega

/-- A turn of `date2num`'s loop on a digit adds it at the multiplier and moves the
multiplier one place. -/
theorem date2numStep_digit {len i : Nat} {c : UInt8} (h : isDigit c = true) (acc : Int × Int) :
    date2numStep len i c acc = (acc.1 + acc.2 * ((c.toNat - 48 : Nat) : Int), acc.2 * 10) := by
  have cast : ((c.toNat - 48 : Nat) : Int) = c.toNat - 48 := by
    have := toNat_of_isDigit h
    omega
  rw [date2numStep, if_pos (ne_dash_of_isDigit h), charValue, if_pos (lt_128_of_isDigit h), cast]

/-- `date2num`'s loop over a run of digits `b` at position `k`: the run's number, at the
multiplier the loop has reached. -/
theorem date2numLoop_digits (s : Bytes) (k : Nat) (b : Bytes) (hb : ∀ c ∈ b, isDigit c = true)
    (hpos : ∀ j < b.length, s.getD (k + j) 0 = b.getD j 0) (acc : Int × Int) :
    date2numLoop s (k + b.length) acc =
      date2numLoop s k (acc.1 + acc.2 * decimalValue b, acc.2 * 10 ^ b.length) := by
  induction b using List.reverseRecOn generalizing acc with
  | nil => simp [decimalValue]
  | append_singleton b c ih =>
    have hc : s.getD (k + b.length) 0 = c := by simpa using hpos b.length (by simp)
    rw [List.length_append, List.length_singleton, ← Nat.add_assoc, date2numLoop, hc,
      date2numStep_digit (hb c (by simp)),
      ih (fun x hx => hb x (by simp [hx])) (fun j hj => by
        simpa [List.getElem?_append_left hj] using hpos j (by simp; omega))]
    simp only [decimalValue, List.foldl_append, List.foldl_cons, List.foldl_nil, pow_succ]
    congr 2 <;> push_cast <;> ring

/-- `check_date_format` accepts every date literal. -/
theorem checkDateFormat_text (l : DateLiteral) : checkDateFormat l.text = true := by
  have digit : ∀ b ∈ [l.year, l.month, l.day], ∀ c ∈ b, isDigit c = true := by
    simp only [List.mem_cons, List.not_mem_nil, or_false]
    rintro b (rfl | rfl | rfl) c hc <;> exact l.digits c (by simp [hc])
  have split : l.text.splitOn 45 = [l.year, l.month, l.day] := by
    rw [show l.text = [45].intercalate [l.year, l.month, l.day] by simp [DateLiteral.text, List.intercalate],
      List.splitOn_intercalate _ _ (fun b hb dash => ne_dash_of_isDigit (digit b hb 45 dash) rfl)
        (List.cons_ne_nil _ _)]
  rw [checkDateFormat, split]
  simp only [Bool.and_eq_true, beq_iff_eq, Bool.or_eq_true, List.all_eq_true, l.year_length,
    true_and]
  exact ⟨⟨⟨⟨l.month_length, l.day_length⟩, digit _ (by simp)⟩, digit _ (by simp)⟩, digit _ (by simp)⟩

/-- `date2num` reads a date literal as `10000 * Y + 100 * M + D`, in each of the four
layouts. -/
theorem date2num_text (l : DateLiteral) :
    date2num l.text =
      10000 * decimalValue l.year + 100 * decimalValue l.month + decimalValue l.day := by
  have hy : ∀ c ∈ l.year, isDigit c = true := fun c hc => l.digits c (by simp [hc])
  have hm : ∀ c ∈ l.month, isDigit c = true := fun c hc => l.digits c (by simp [hc])
  have hd : ∀ c ∈ l.day, isDigit c = true := fun c hc => l.digits c (by simp [hc])
  have year := date2numLoop_digits l.text 0 l.year hy
    (fun j hj => l.getD_text_year (l.year_length ▸ hj))
  have month := date2numLoop_digits l.text 5 l.month hm fun j hj => l.getD_text_month hj
  have day := date2numLoop_digits l.text (6 + l.month.length) l.day hd fun j _ => l.getD_text_day
  rw [l.year_length, Nat.zero_add] at year
  rw [date2num, l.length_text, day, show 6 + l.month.length = 5 + l.month.length + 1 by omega,
    date2numLoop, l.getD_text_dash_month, month, date2numLoop, l.getD_text_dash_year, year,
    date2numLoop]
  rcases l.month_length with m | m <;> rcases l.day_length with d | d <;>
    simp [date2numStep, l.length_text, m, d] <;> ring

/-! ### The checks -/

/-- Packing `(y, m, d)` as `10000 * y + 100 * m + d` keeps calendar order, for months and
days below `100`. -/
theorem dateLe_iff_packed {y m d y' m' d' : Nat} (hm : m < 100) (hd : d < 100) (hm' : m' < 100)
    (hd' : d' < 100) :
    DateLe (y, m, d) (y', m', d') ↔ 10000 * y + 100 * m + d ≤ 10000 * y' + 100 * m' + d' := by
  simp only [DateLe]
  omega

/-- From 1970 to 2038 the Gregorian leap years are those divisible by four. -/
theorem isLeapYear_iff_of_range {y : Nat} (lo : 1970 ≤ y) (hi : y ≤ 2038) :
    IsLeapYear y ↔ y % 4 = 0 := by
  unfold IsLeapYear
  omega

/-- Between 1970 and 2038, a date is a day of the calendar exactly when it passes the month
and day checks of `check_date_data_convert`. -/
theorem isCalendarDate_iff {y m d : Nat} (lo : 1970 ≤ y) (hi : y ≤ 2038) :
    IsCalendarDate y m d ↔
      ¬(((m = 4 ∨ m = 6 ∨ m = 9 ∨ m = 11) ∧ 30 < d ∨ ¬(m = 4 ∨ m = 6 ∨ m = 9 ∨ m = 11) ∧ 31 < d) ∨
        m = 2 ∧ (y % 4 = 0 ∧ 29 < d ∨ ¬y % 4 = 0 ∧ 28 < d) ∨ (12 < m ∨ m < 1) ∨ 31 < d ∨ d < 1) := by
  simp only [IsCalendarDate, daysInMonth, isLeapYear_iff_of_range lo hi]
  split_ifs <;> simp [*] <;> omega

/-! `check_date_data_convert` clears `t` in a chain of `if`s, one per check; these fold the
chain into one condition. -/

theorem ite_zero_or {c P : Prop} [Decidable c] [Decidable P] (t : Int) :
    (if c then (0 : Int) else if P then 0 else t) = if c ∨ P then 0 else t := by
  by_cases c <;> simp [*]

theorem ite_or_zero {p P Q X : Prop} [Decidable p] [Decidable P] [Decidable Q] [Decidable X]
    (t : Int) : (if p then (if P ∨ X then (0 : Int) else t) else if Q ∨ X then 0 else t) =
      if (p ∧ P ∨ ¬p ∧ Q) ∨ X then 0 else t := by
  by_cases p <;> simp [*]

theorem ite_or_zero_left {p P X : Prop} [Decidable p] [Decidable P] [Decidable X] (t : Int) :
    (if p then (if P ∨ X then (0 : Int) else t) else if X then 0 else t) =
      if p ∧ P ∨ X then 0 else t := by
  by_cases p <;> simp [*]

/-- `check_date_data_convert` on a string `date2num` reads as `10000 * y + 100 * m + d`,
with `m` and `d` below `100`: it keeps `t = 1` exactly when `(y, m, d)` is a day `DATE`
columns hold. -/
theorem checkDateDataConvert_of_date2num {s : Bytes} {y m d : Nat} (hm : m < 100) (hd : d < 100)
    (h : date2num s = 10000 * y + 100 * m + d) :
    checkDateDataConvert s 1 =
      (10000 * (y : Int) + 100 * m + d, if IsStorableDate y m d then 1 else 0) := by
  have days : (10000 * (y : Int) + 100 * m + d).tmod 100 = d := by
    rw [Int.tmod_eq_emod (by omega) (by omega)]
    omega
  have months : ((10000 * (y : Int) + 100 * m + d).tmod 10000).tdiv 100 = m := by
    rw [Int.tmod_eq_emod (by omega) (by omega), Int.tdiv_eq_ediv (by omega) (by omega)]
    omega
  have years : (10000 * (y : Int) + 100 * m + d).tdiv 10000 = y := by
    rw [Int.tdiv_eq_ediv (by omega) (by omega)]
    omega
  simp only [checkDateDataConvert, h, days, months, years, Prod.mk.injEq, true_and]
  simp only [ite_zero_or, ite_or_zero, ite_or_zero_left,
    show (y : Int).tmod 4 = ((y % 4 : Nat) : Int) from rfl]
  norm_cast
  by_cases range : 19700101 ≤ 10000 * y + 100 * m + d ∧ 10000 * y + 100 * m + d ≤ 20380131
  · simp only [IsStorableDate, isCalendarDate_iff (show 1970 ≤ y by omega) (show y ≤ 2038 by omega),
      @dateLe_iff_packed 1970 1 1 y m d (by decide) (by decide) hm hd,
      @dateLe_iff_packed y m d 2038 1 31 hm hd (by decide) (by decide), range.1,
      range.2, show ¬10000 * y + 100 * m + d < 19700101 by omega,
      show ¬20380131 < 10000 * y + 100 * m + d by omega, Nat.reduceMul, Nat.reduceAdd, or_false,
      and_true, ite_not]
  · rw [if_pos (.inr (.inr (.inr (.inr (by omega))))), if_neg fun ⟨_, lo, hi⟩ =>
      range ⟨(dateLe_iff_packed (by decide) (by decide) hm hd).1 lo,
        (dateLe_iff_packed hm hd (by decide) (by decide)).1 hi⟩]

/-- A month or day of one or two digits is below `100`. -/
theorem decimalValue_lt_100 {b : Bytes} (hb : ∀ c ∈ b, isDigit c = true)
    (h : b.length = 1 ∨ b.length = 2) : decimalValue b < 100 :=
  Nat.lt_of_lt_of_le (decimalValue_lt b hb) (by rcases h with h | h <;> simp [h])

theorem checkDateDataConvert_text (l : DateLiteral) :
    checkDateDataConvert l.text 1 =
      (10000 * (decimalValue l.year : Int) + 100 * decimalValue l.month + decimalValue l.day,
        if IsStorableDate (decimalValue l.year) (decimalValue l.month) (decimalValue l.day)
        then 1 else 0) :=
  checkDateDataConvert_of_date2num
    (decimalValue_lt_100 (fun c hc => l.digits c (by simp [hc])) l.month_length)
    (decimalValue_lt_100 (fun c hc => l.digits c (by simp [hc])) l.day_length) (date2num_text l)

/-- A date literal through `check_date_data_convert` and `value_init_string`: the format
check passes, the packed number is `10000 * Y + 100 * M + D`, and `t` stays `1` exactly when
`(Y, M, D)` is a day `DATE` columns hold. So a non-null literal becomes a `DATES` value
holding that number for such a day, and a `CHARS` value holding the string for any other. -/
theorem valueInitString_dateLiteral (l : DateLiteral) :
    checkDateFormat l.text = true ∧
      checkDateDataConvert l.text 1 =
        (10000 * (decimalValue l.year : Int) + 100 * decimalValue l.month + decimalValue l.day,
          if IsStorableDate (decimalValue l.year) (decimalValue l.month) (decimalValue l.day)
          then 1 else 0) ∧
      ∀ v : CString, v.bytes = l.text → valueInitString v false =
        if IsStorableDate (decimalValue l.year) (decimalValue l.month) (decimalValue l.day) then
          ⟨.dates, intBytes (BitVec.ofInt 32 (10000 * (decimalValue l.year : Int) +
            100 * decimalValue l.month + decimalValue l.day)), false⟩
        else ⟨.chars, strdup v, false⟩ := by
  refine ⟨checkDateFormat_text l, checkDateDataConvert_text l, fun v hv => ?_⟩
  rw [valueInitString, if_neg Bool.false_ne_true, hv, checkDateFormat_text, if_pos rfl,
    checkDateDataConvert_text]
  split_ifs <;> simp_all

/-- `check_date_format` accepts exactly the date literals. -/
theorem checkDateFormat_iff {s : Bytes} : checkDateFormat s = true ↔ ∃ l : DateLiteral, l.text = s := by
  refine ⟨fun h => ?_, fun ⟨l, e⟩ => e ▸ checkDateFormat_text l⟩
  unfold checkDateFormat at h
  split at h
  · rename_i y m d split
    simp only [Bool.and_eq_true, beq_iff_eq, Bool.or_eq_true, List.all_eq_true] at h
    obtain ⟨⟨⟨⟨⟨hy, hm⟩, hd⟩, dy⟩, dm⟩, dd⟩ := h
    refine ⟨⟨y, m, d, hy, hm, hd, fun c hc => ?_⟩, ?_⟩
    · simp only [List.mem_append] at hc
      rcases hc with (hc | hc) | hc
      exacts [dy c hc, dm c hc, dd c hc]
    · have whole := List.intercalate_splitOn s (45 : UInt8)
      rw [split] at whole
      simpa [DateLiteral.text, List.intercalate] using whole
  · exact absurd h Bool.false_ne_true

/-! ### String literals and `is_legal` -/

theorem strlen_strdup (s : CString) : strlen (strdup s) = s.bytes.length := by
  rw [strlen, strdup, List.takeWhile_append_of_pos fun c hc =>
    bne_iff_ne.2 (by rintro rfl; exact s.no_nul hc)]
  simp

/-- `is_legal` on a non-null string literal: a literal `value_init_string` reads as a date in
range is legal for a `DATES` field alone, and any other literal for a `CHARS` field that holds
its length. -/
theorem isLegal_valueInitString (v : CString) (f : FieldMeta) :
    isLegal (valueInitString v false) f = .success ↔
      if checkDateFormat v.bytes = true ∧ (checkDateDataConvert v.bytes 1).2 ≠ 0 then
        f.type = .dates
      else f.type = .chars ∧ v.bytes.length ≤ f.len := by
  have value : valueInitString v false =
      if checkDateFormat v.bytes = true ∧ (checkDateDataConvert v.bytes 1).2 ≠ 0 then
        ⟨.dates, intBytes (BitVec.ofInt 32 (checkDateDataConvert v.bytes 1).1), false⟩
      else ⟨.chars, strdup v, false⟩ := by
    unfold valueInitString
    split_ifs <;> simp_all
  rw [value]
  split_ifs
  · simp [isLegal]
  · simp only [isLegal, strlen_strdup]
    split_ifs <;> simp_all

/-- `is_legal` on a non-null string literal, by what the literal says: a date literal naming
a day `DATE` columns hold is legal for a `DATES` field and for no other, and every other
string for a `CHARS` field that holds its length. -/
theorem isLegal_stringLiteral (v : CString) (f : FieldMeta) :
    isLegal (valueInitString v false) f = .success ↔
      (∃ l : DateLiteral, l.text = v.bytes ∧
          IsStorableDate (decimalValue l.year) (decimalValue l.month) (decimalValue l.day)) ∧
        f.type = .dates ∨
      (¬∃ l : DateLiteral, l.text = v.bytes ∧
          IsStorableDate (decimalValue l.year) (decimalValue l.month) (decimalValue l.day)) ∧
        f.type = .chars ∧ v.bytes.length ≤ f.len := by
  have date : (checkDateFormat v.bytes = true ∧ (checkDateDataConvert v.bytes 1).2 ≠ 0) ↔
      ∃ l : DateLiteral, l.text = v.bytes ∧
        IsStorableDate (decimalValue l.year) (decimalValue l.month) (decimalValue l.day) := by
    constructor
    · rintro ⟨format, kept⟩
      obtain ⟨l, text⟩ := checkDateFormat_iff.1 format
      rw [← text, checkDateDataConvert_text] at kept
      exact ⟨l, text, by_contra fun h => kept (if_neg h)⟩
    · rintro ⟨l, text, ok⟩
      rw [← text, checkDateFormat_text, checkDateDataConvert_text, if_pos ok]
      exact ⟨rfl, one_ne_zero⟩
  rw [isLegal_valueInitString]
  by_cases h : ∃ l : DateLiteral, l.text = v.bytes ∧
      IsStorableDate (decimalValue l.year) (decimalValue l.month) (decimalValue l.day)
  · simp [date.2 h, h]
  · simp [mt date.1 h, h]

/-- The literal `'2020-01-01'`. -/
def newYearLiteral : CString := ⟨[50, 48, 50, 48, 45, 48, 49, 45, 48, 49], by decide⟩

/-- `'2020-01-01'` for a `CHAR(10)` field: the string fits the field, but `value_init_string`
reads it as a date and `is_legal` rejects it with `SCHEMA_FIELD_TYPE_MISMATCH`. -/
theorem date_string_rejected_for_char_field :
    strlen (strdup newYearLiteral) = 10 ∧ (valueInitString newYearLiteral false).type = .dates ∧
      isLegal (valueInitString newYearLiteral false) ⟨"c", .chars, 4, 10, false⟩ =
        .schemaFieldTypeMismatch := by
  decide

/-! ### Dates as keys -/

/-- The day a literal names, as `(year, month, day)`. -/
def DateLiteral.date (l : DateLiteral) : Nat × Nat × Nat :=
  (decimalValue l.year, decimalValue l.month, decimalValue l.day)

/-- A literal naming a day `DATE` columns hold becomes a `DATES` value whose four bytes read
back as `10000 * Y + 100 * M + D`, with the month and the day below `100`. -/
theorem intOfBytes_valueInitString {l : DateLiteral} {v : CString} (hv : v.bytes = l.text)
    (storable : IsStorableDate l.date.1 l.date.2.1 l.date.2.2) :
    (valueInitString v false).type = .dates ∧ l.date.2.1 < 100 ∧ l.date.2.2 < 100 ∧
      intOfBytes (valueInitString v false).data =
        10000 * (l.date.1 : Int) + 100 * l.date.2.1 + l.date.2.2 := by
  simp only [DateLiteral.date] at storable ⊢
  have hm := decimalValue_lt_100 (fun c hc => l.digits c (by simp [hc])) l.month_length
  have hd := decimalValue_lt_100 (fun c hc => l.digits c (by simp [hc])) l.day_length
  have top := (dateLe_iff_packed hm hd (by decide) (by decide)).1 storable.2.2
  rw [valueInitString, if_neg Bool.false_ne_true, hv, checkDateFormat_text, if_pos rfl,
    checkDateDataConvert_text, if_pos storable, if_pos one_ne_zero]
  refine ⟨rfl, hm, hd, ?_⟩
  rw [intOfBytes_intBytes, BitVec.toInt_ofInt, Int.bmod_def,
    Int.emod_eq_of_lt (by omega) (by omega), if_pos (by omega)]

/-- `DATES` values compare as their days: for two literals naming days `DATE` columns hold,
`value_init_string` builds `DATES` values whose four bytes, read as C `int`s, stand in the
order the two days stand in the calendar. -/
theorem dateValues_compare {l l' : DateLiteral} {v v' : CString} (hv : v.bytes = l.text)
    (hv' : v'.bytes = l'.text) (storable : IsStorableDate l.date.1 l.date.2.1 l.date.2.2)
    (storable' : IsStorableDate l'.date.1 l'.date.2.1 l'.date.2.2) :
    (valueInitString v false).type = .dates ∧ (valueInitString v' false).type = .dates ∧
      (compare (intOfBytes (valueInitString v false).data)
          (intOfBytes (valueInitString v' false).data) ≠ .gt ↔ DateLe l.date l'.date) ∧
      (compare (intOfBytes (valueInitString v false).data)
          (intOfBytes (valueInitString v' false).data) = .eq ↔ l.date = l'.date) := by
  obtain ⟨dates, hm, hd, read⟩ := intOfBytes_valueInitString hv storable
  obtain ⟨dates', hm', hd', read'⟩ := intOfBytes_valueInitString hv' storable'
  refine ⟨dates, dates', ?_, ?_⟩
  · rw [Ne, compare_gt_iff_gt, not_lt, read, read', dateLe_iff_packed hm hd hm' hd']
    omega
  · rw [compare_eq_iff_eq, read, read', Prod.ext_iff, Prod.ext_iff]
    omega

/-- `1999-12-31`, by its runs of digits. -/
def newYearsEve : DateLiteral :=
  ⟨[49, 57, 57, 57], [49, 50], [51, 49], rfl, .inr rfl, .inr rfl, by decide⟩

/-- `2020-01-01`, by its runs of digits. -/
def newYearDay : DateLiteral :=
  ⟨[50, 48, 50, 48], [48, 49], [48, 49], rfl, .inr rfl, .inr rfl, by decide⟩

/-- The literal `'1999-12-31'`. -/
def newYearsEveLiteral : CString := ⟨[49, 57, 57, 57, 45, 49, 50, 45, 51, 49], by decide⟩

/-- `'1999-12-31'` and `'2020-01-01'`: both days are storable, and the first value's `int`
does not exceed the second's. -/
theorem dateValues_compare_newYearsEve :
    newYearsEveLiteral.bytes = newYearsEve.text ∧ newYearLiteral.bytes = newYearDay.text ∧
      IsStorableDate newYearsEve.date.1 newYearsEve.date.2.1 newYearsEve.date.2.2 ∧
      IsStorableDate newYearDay.date.1 newYearDay.date.2.1 newYearDay.date.2.2 ∧
      (compare (intOfBytes (valueInitString newYearsEveLiteral false).data)
          (intOfBytes (valueInitString newYearLiteral false).data) ≠ .gt ↔
        DateLe newYearsEve.date newYearDay.date) :=
  have storable : IsStorableDate newYearsEve.date.1 newYearsEve.date.2.1 newYearsEve.date.2.2 ∧
      IsStorableDate newYearDay.date.1 newYearDay.date.2.1 newYearDay.date.2.2 := by decide
  ⟨rfl, rfl, storable.1, storable.2,
    (@dateValues_compare newYearsEve newYearDay newYearsEveLiteral newYearLiteral rfl rfl
      storable.1 storable.2).2.2.1⟩

end Miniob
