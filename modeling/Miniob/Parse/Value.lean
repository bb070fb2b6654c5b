import Miniob.Storage.Bytes

/-!
Literal values as the parser builds them (`sql/parser/parse.cpp`).

A `Value` is the AST's tagged buffer: a type, the bytes `value->data` points to, and the
null flag. The constructors in the sources are `valueInitInteger`, `valueInitFloat` and
`valueInitString`; the last one recognises date literals with `checkDateFormat` (the
regular expression `^\d{4}-\d{1,2}-\d{1,2}`) and packs them with `date2num` and
`checkDateDataConvert`. The grammar calls it for the `NULL` literal; quoted literals go
through `value_init_string_with_text`, which is not in the sources.

C `int` is `BitVec 32`; a `float` is its 32-bit pattern, since only its four bytes are
ever copied. `date2num` computes over `Int`: it runs only on strings that passed
`checkDateFormat`, at most ten characters, where the C arithmetic cannot overflow. C's
`/` and `%` truncate towards zero, as `Int.tdiv` and `Int.tmod` do.
-/

namespace Miniob

/-- `AttrType`: the column and value types of the AST. -/
inductive AttrType where
  | undefined
  | chars
  | ints
  | floats
  | dates
  | texts
  | nulls
  deriving DecidableEq, Repr

/-- `Value`: a literal's type, the bytes at `data`, and `is_null`. -/
structure Value where
  type : AttrType
  data : Bytes
  isNull : Bool
  deriving DecidableEq, Repr

/-- `value_init_integer(value, v, is_null)`. -/
def valueInitInteger (v : BitVec 32) (isNull : Bool) : Value :=
  ⟨.ints, intBytes v, isNull⟩

/-- `value_init_float(value, v, is_null)`, with the float given by its bit pattern. -/
def valueInitFloat (v : BitVec 32) (isNull : Bool) : Value :=
  ⟨.floats, intBytes v, isNull⟩

/-! ### Date literals -/

/-- `'0' <= c && c <= '9'`, the class `\d` matches. -/
def isDigit (c : UInt8) : Bool :=
  48 ≤ c && c ≤ 57

/-- `check_date_format`: the whole string matches `\d{4}-\d{1,2}-\d{1,2}`. -/
def checkDateFormat (s : Bytes) : Bool :=
  match s.splitOn 45 with
  | [y, m, d] =>
      y.length == 4 && (m.length == 1 || m.length == 2) && (d.length == 1 || d.length == 2) &&
        y.all isDigit && m.all isDigit && d.all isDigit
  | _ => false

/-- A `char` read as the signed integer C arithmetic sees. -/
def charValue (c : UInt8) : Int :=
  if c < 128 then c.toNat else (c.toNat : Int) - 256

/-- One turn of `date2num`'s loop at position `i` of a string of length `len`, on the
pair `(num, mul)`. -/
def date2numStep (len i : Nat) (c : UInt8) (acc : Int × Int) : Int × Int :=
  if c ≠ 45 then (acc.1 + acc.2 * (charValue c - 48), acc.2 * 10)
  else if i + 2 = len then (acc.1, acc.2 * 10)
  else if i + 5 = len then (acc.1, if acc.2 = 1000 then acc.2 * 10 else acc.2)
  else if i + 4 = len then (acc.1, acc.2 * 10)
  else acc

/-- `date2num`'s loop `for (i = len - 1; i >= 0; i--)`, with `i` positions left. -/
def date2numLoop (s : Bytes) : Nat → Int × Int → Int × Int
  | 0, acc => acc
  | i + 1, acc => date2numLoop s i (date2numStep s.length i (s.getD i 0) acc)

/-- `date2num`: the digits read right to left, the multiplier skipping a place at the
dashes of the four layouts. -/
def date2num (s : Bytes) : Int :=
  (date2numLoop s s.length (0, 1)).1

/-- `check_date_data_convert(s, t)`: the packed date, and `t` cleared by every check the
date fails. -/
def checkDateDataConvert (s : Bytes) (t : Int) : Int × Int :=
  let num := date2num s
  let t := if num < 19700101 ∨ num > 20380131 then 0 else t
  let days := num.tmod 100
  let t := if days > 31 ∨ days < 1 then 0 else t
  let mons := (num.tmod 10000).tdiv 100
  let t := if mons > 12 ∨ mons < 1 then 0 else t
  let years := num.tdiv 10000
  let t :=
    if mons = 2 then
      if years.tmod 4 = 0 then (if days > 29 then 0 else t) else (if days > 28 then 0 else t)
    else t
  let t :=
    if mons = 4 ∨ mons = 6 ∨ mons = 9 ∨ mons = 11 then (if days > 30 then 0 else t)
    else (if days > 31 then 0 else t)
  (num, t)

/-- `value_init_string(value, v, is_null)`: a null literal, a valid date, or a string. -/
def valueInitString (v : CString) (isNull : Bool) : Value :=
  if isNull then ⟨.nulls, strdup v, isNull⟩
  else if checkDateFormat v.bytes then
    if (checkDateDataConvert v.bytes 1).2 ≠ 0 then
      ⟨.dates, intBytes (BitVec.ofInt 32 (checkDateDataConvert v.bytes 1).1), isNull⟩
    else ⟨.chars, strdup v, isNull⟩
  else ⟨.chars, strdup v, isNull⟩

/-- The values the grammar builds: numbers are never null, and the `NULL` literal goes
through `valueInitString` with `is_null` set (`yacc_sql.tab.c`, case 62). The string case
also admits every non-null `valueInitString` value: a quoted literal goes through
`value_init_string_with_text` (case 63), which is not in the sources, and is taken here
as `value_init_string` builds it. -/
inductive GrammarValue : Value → Prop where
  | integer (v : BitVec 32) : GrammarValue (valueInitInteger v false)
  | float (v : BitVec 32) : GrammarValue (valueInitFloat v false)
  | string (s : CString) (isNull : Bool) : GrammarValue (valueInitString s isNull)

theorem valueInitString_isNull (v : CString) (isNull : Bool) :
    (valueInitString v isNull).isNull = isNull := by
  unfold valueInitString; split_ifs <;> rfl

theorem valueInitString_type_nulls (v : CString) (isNull : Bool) :
    (valueInitString v isNull).type = .nulls ↔ isNull = true := by
  unfold valueInitString; split_ifs <;> simp_all

/-- The constructor invariant `is_legal` relies on: a value the grammar builds is null
exactly when its type is `NULLS`. -/
theorem GrammarValue.isNull_iff {v : Value} (built : GrammarValue v) :
    v.isNull = true ↔ v.type = .nulls := by
  cases built with
  | integer => simp [valueInitInteger]
  | float => simp [valueInitFloat]
  | string s isNull => rw [valueInitString_isNull, valueInitString_type_nulls]

end Miniob
