import Miniob.Storage.Table

/-!
How far the insert path reads into the buffers it copies from (`Table::make_record`,
`Table::insert_record`).

A `memcpy(dst, src, n)` reads `n` bytes of `src`. The model reads a byte past the end of
its source as zero (`readBytes`), where the C code reads whatever follows the buffer; the
results here compare each count with the length of the buffer it is read from.

* `make_record` copies `field->len()` bytes of each non-null value's data. A `CHARS`
  value is the `strdup` of its string, `strlen + 1` bytes, and `is_legal` only bounds
  `strlen` by `len`, so every string more than one byte shorter than its field is read past
  its end (`insert_char_reads_past_buffers`).
* `make_record` allocates `record_size + value_num` bytes, and `insert_record` hands
  `record_size + field_num` of them to the record manager. The sys fields are counted in
  `field_num` and not in `value_num`, and every table has one, so the hand-over reads past
  the end of every record `make_record` builds (`length_makeRecord_lt`).
-/

namespace Miniob

/-- A record `make_record` builds has `record_size + value_num` bytes, one per value
fewer than the `field_num` fields. -/
theorem length_makeRecord {m : TableMeta} {values : List Value} {data : Bytes}
    (h : makeRecord m values = .ok data) :
    data.length = m.recordSize + values.length ∧ values.length + m.sysFieldNum = m.fieldNum := by
  unfold makeRecord at h
  split_ifs at h with arity
  cases h
  exact ⟨by rw [length_writeValues, List.length_replicate], not_not.1 arity⟩

/-- The record `make_record` builds is `sys_field_num` bytes shorter than the
`record_size + field_num` bytes `insert_record` hands to the record manager. -/
theorem length_makeRecord_lt {m : TableMeta} {values : List Value} {data : Bytes}
    (h : makeRecord m values = .ok data) :
    data.length + m.sysFieldNum = m.recordSize + m.fieldNum ∧
      data.length < m.recordSize + m.fieldNum := by
  obtain ⟨size, arity⟩ := length_makeRecord h
  have := m.has_trx_field.1
  omega

/-- A table `t(c CHAR(8))`. -/
def charTable : TableMeta where
  name := "t"
  sysFieldNum := 1
  fields := [⟨"__trx", .ints, 0, 4, false⟩, ⟨"c", .chars, 4, 8, false⟩]
  indexes := []
  recordSize := 12
  contiguous := ⟨rfl, rfl, trivial⟩
  has_user_field := by decide
  has_trx_field := by decide
  payload_le := by decide

/-- The row `('ab')` for `t(c CHAR(8))`: `is_legal` accepts it and `make_record` builds a
record, copying eight bytes of `c` from the three-byte `strdup` of `"ab"`, into a buffer of
`13` bytes of which `insert_record` hands `14` to the record manager. -/
theorem insert_char_reads_past_buffers :
    charTable.field 1 = some ⟨"c", .chars, 4, 8, false⟩ ∧
      charTable.recordSize + charTable.fieldNum = 14 ∧
      let v := valueInitString ⟨[97, 98], by decide⟩ false
      isLegal v ⟨"c", .chars, 4, 8, false⟩ = .success ∧ v.data.length = 3 ∧
        ∃ data, makeRecord charTable [v] = .ok data ∧ data.length = 13 :=
  ⟨rfl, rfl, by decide, rfl, _, rfl, rfl⟩

end Miniob
