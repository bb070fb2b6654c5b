import Miniob.Storage.Meta

/-!
Record images: `Table::is_legal`, `Table::make_record`, and the bytes the per-record
`Table::update_record` writes (`table.cpp`).

`makeRecord` checks the arity and each value's legality, then fills a fresh buffer of
`record_size + value_num` bytes field by field (`writeValues`): a non-null value's first
`len` bytes go to the field, a null one's type sentinel does, and the value's null flag
goes to byte `null_field_index + i`. `new char[]` leaves the buffer uninitialised; it is
modelled as zeros.

`updateField` is the update's own pair of writes: the value's bytes at the field, and
`is_null` at `null_field_index + i - 1`, where `i` counts every field, sys fields
included.

The shape results are `writeValues_slice` and `writeValues_flag` (each field and each
flag byte holds what its own turn of the loop wrote) and `getElem?_updateField_of_ne`
(the update leaves every byte it does not write alone).
-/

namespace Miniob

/-- `RC`: the result codes the storage engine returns. -/
inductive RC where
  | success
  | invalidArgument
  | schemaTableExist
  | schemaTableNameIllegal
  | schemaIndexExist
  | schemaFieldMissing
  | schemaFieldNameIllegal
  | schemaFieldTypeMismatch
  | schemaFieldNotExist
  | recordEof
  | recordInvalidKey
  | ioerr
  | sqlSyntax
  | genericError
  deriving DecidableEq, Repr

/-- `Table::is_legal(value, field)`. -/
def isLegal (value : Value) (field : FieldMeta) : RC :=
  if value.type = .nulls ∧ !field.nullable then .schemaFieldNameIllegal
  else if value.type ≠ .nulls ∧ field.type ≠ value.type then .schemaFieldTypeMismatch
  else if value.type = .chars ∧ strlen value.data > field.len then .schemaFieldMissing
  else .success

/-- `make_record`'s legality loop: the first value `is_legal` rejects. -/
def checkLegal : List Value → List FieldMeta → RC
  | v :: vs, f :: fs => if isLegal v f ≠ .success then isLegal v f else checkLegal vs fs
  | _, _ => .success

/-- What `make_record` copies into a null field: `"NULL"` for `CHARS`, the int
`19700101` for `DATES`, a zero for `FLOATS` and `INTS`, nothing for the other types. -/
def nullSentinel : AttrType → Option Bytes
  | .chars => some [78, 85, 76, 76, 0]
  | .dates => some (intBytes 19700101)
  | .floats => some (intBytes 0)
  | .ints => some (intBytes 0)
  | _ => none

/-- One turn of `make_record`'s copy loop: user field `i` and its null flag. -/
def writeValue (nullFieldIndex : Nat) (record : Bytes) (i : Nat) (field : FieldMeta)
    (value : Value) : Bytes :=
  if value.isNull then
    let record := match nullSentinel field.type with
      | some v => memcpy record field.offset v field.len
      | none => record
    memcpy record (nullFieldIndex + i) [1] 1
  else
    memcpy (memcpy record field.offset value.data field.len) (nullFieldIndex + i) [0] 1

/-- `make_record`'s copy loop from user field `i` on. -/
def writeValues (nullFieldIndex : Nat) : Nat → List FieldMeta → List Value → Bytes → Bytes
  | i, f :: fs, v :: vs, record =>
      writeValues nullFieldIndex (i + 1) fs vs (writeValue nullFieldIndex record i f v)
  | _, _, _, record => record

namespace TableMeta

/-- `null_field_index` as the code computes it: the end of the last field. -/
def lastFieldEnd (m : TableMeta) : Nat :=
  match m.field (m.fieldNum - 1) with
  | some f => f.offset + f.len
  | none => 0

theorem lastFieldEnd_eq (m : TableMeta) : m.lastFieldEnd = m.nullFieldIndex := by
  have h := m.has_user_field
  have hk : m.fieldNum - 1 < m.fields.length := by unfold fieldNum; omega
  simp only [lastFieldEnd, field, List.getElem?_eq_getElem hk]
  exact m.last_field_end hk (by unfold fieldNum; omega)

end TableMeta

/-- `Table::make_record(value_num, values, record_out)`. The buffer `new char[]` returns is
uninitialised; it is zeros here, so the bytes no turn of the loop writes (the `__trx` word,
which a record inserted without a transaction keeps) are zero. -/
def makeRecord (m : TableMeta) (values : List Value) : Except RC Bytes :=
  if values.length + m.sysFieldNum ≠ m.fieldNum then .error .schemaFieldMissing
  else if checkLegal values m.userFields ≠ .success then .error (checkLegal values m.userFields)
  else .ok (writeValues m.lastFieldEnd 0 m.userFields values
    (List.replicate (m.recordSize + values.length) 0))

/-- The writes of the per-record `update_record` for field `i` (counted over all fields):
`memcpy(data + offset, value->data, len)` and the null flag at
`null_field_index + i - 1`. -/
def updateField (m : TableMeta) (data : Bytes) (i : Nat) (field : FieldMeta)
    (value : Value) : Bytes :=
  memcpy (memcpy data field.offset value.data field.len) (m.lastFieldEnd + i - 1)
    [if value.isNull then 1 else 0] 1

/-! ### What the copy loop writes -/

/-- The bytes a turn of the copy loop leaves in its field. -/
def fieldImage (field : FieldMeta) (value : Value) (record : Bytes) : Bytes :=
  if value.isNull then
    match nullSentinel field.type with
    | some v => readBytes v field.len
    | none => slice record field.offset field.len
  else readBytes value.data field.len

theorem length_writeValue (nfi i : Nat) (record : Bytes) (f : FieldMeta) (v : Value) :
    (writeValue nfi record i f v).length = record.length := by
  unfold writeValue; split <;> [split <;> simp; simp]

theorem length_writeValues (nfi : Nat) :
    ∀ (i : Nat) (fs : List FieldMeta) (vs : List Value) (record : Bytes),
      (writeValues nfi i fs vs record).length = record.length
  | _, _ :: _, _ :: _, _ => by simp [writeValues, length_writeValues, length_writeValue]
  | _, [], _, _ => rfl
  | _, _ :: _, [], _ => rfl

/-- A turn of the copy loop only touches its field and its flag byte. -/
theorem slice_writeValue_of_disjoint {nfi i off n : Nat} {record : Bytes} {f : FieldMeta}
    {v : Value} (hf : off + n ≤ f.offset ∨ f.offset + f.len ≤ off)
    (hflag : off + n ≤ nfi + i ∨ nfi + i + 1 ≤ off) :
    slice (writeValue nfi record i f v) off n = slice record off n := by
  unfold writeValue
  split
  · rw [slice_memcpy_of_disjoint hflag]
    split <;> [exact slice_memcpy_of_disjoint hf; rfl]
  · rw [slice_memcpy_of_disjoint hflag, slice_memcpy_of_disjoint hf]

theorem slice_writeValue_self {nfi i : Nat} {record : Bytes} {f : FieldMeta} {v : Value}
    (hlen : f.offset + f.len ≤ record.length) (hflag : f.offset + f.len ≤ nfi + i) :
    slice (writeValue nfi record i f v) f.offset f.len = fieldImage f v record := by
  unfold writeValue fieldImage
  split
  · rw [slice_memcpy_of_disjoint (.inl hflag)]
    split <;> [exact slice_memcpy_self hlen; rfl]
  · rw [slice_memcpy_of_disjoint (.inl hflag), slice_memcpy_self hlen]

theorem getElem?_writeValue_flag {nfi i : Nat} {record : Bytes} {f : FieldMeta} {v : Value}
    (hlen : nfi + i < record.length) :
    (writeValue nfi record i f v)[nfi + i]? = some (if v.isNull then 1 else 0) := by
  unfold writeValue
  split
  · rw [getElem?_memcpy_of_le le_rfl (by omega) (by split <;> simpa)]; simp_all
  · rw [getElem?_memcpy_of_le le_rfl (by omega) (by simpa)]; simp_all

theorem getElem?_writeValue_of_ne {nfi i p : Nat} {record : Bytes} {f : FieldMeta}
    {v : Value} (hf : p < f.offset ∨ f.offset + f.len ≤ p) (hp : p ≠ nfi + i) :
    (writeValue nfi record i f v)[p]? = record[p]? := by
  unfold writeValue
  split
  · rw [getElem?_memcpy_of_lt (by omega)]
    split <;> [exact getElem?_memcpy_of_lt hf; rfl]
  · rw [getElem?_memcpy_of_lt (by omega), getElem?_memcpy_of_lt hf]

/-- The copy loop leaves alone every byte range outside its fields and flag bytes. -/
theorem slice_writeValues_of_disjoint {nfi off n : Nat} :
    ∀ {i : Nat} {fs : List FieldMeta} {vs : List Value} {record : Bytes},
      (∀ f ∈ fs, off + n ≤ f.offset ∨ f.offset + f.len ≤ off) →
      (off + n ≤ nfi + i ∨ nfi + i + fs.length ≤ off) →
      slice (writeValues nfi i fs vs record) off n = slice record off n
  | _, f :: fs, _ :: _, _, hf, hflag => by
      simp only [List.length_cons] at hflag
      rw [writeValues, slice_writeValues_of_disjoint (fun g hg => hf g (.tail _ hg)) (by omega),
        slice_writeValue_of_disjoint (hf f (.head _)) (by omega)]
  | _, [], _, _, _, _ => rfl
  | _, _ :: _, [], _, _, _ => rfl

theorem getElem?_writeValues_of_ne {nfi p : Nat} :
    ∀ {i : Nat} {fs : List FieldMeta} {vs : List Value} {record : Bytes},
      (∀ f ∈ fs, p < f.offset ∨ f.offset + f.len ≤ p) →
      (p < nfi + i ∨ nfi + i + fs.length ≤ p) →
      (writeValues nfi i fs vs record)[p]? = record[p]?
  | _, f :: fs, _ :: _, _, hf, hflag => by
      simp only [List.length_cons] at hflag
      rw [writeValues, getElem?_writeValues_of_ne (fun g hg => hf g (.tail _ hg)) (by omega),
        getElem?_writeValue_of_ne (hf f (.head _)) (by omega)]
  | _, [], _, _, _, _ => rfl
  | _, _ :: _, [], _, _, _ => rfl

/-- The image a turn would leave depends only on the field's own bytes. -/
theorem fieldImage_congr {f : FieldMeta} {v : Value} {r r' : Bytes}
    (h : slice r f.offset f.len = slice r' f.offset f.len) :
    fieldImage f v r = fieldImage f v r' := by
  unfold fieldImage; split <;> [split <;> simp [h]; rfl]

section Loop

variable {nfi : Nat}

/-- After the copy loop, each user field holds the image its own turn wrote. -/
theorem writeValues_slice :
    ∀ {i : Nat} {fs : List FieldMeta} {vs : List Value} {record : Bytes},
      fs.Pairwise (fun f g => f.offset + f.len ≤ g.offset) →
      (∀ f ∈ fs, f.offset + f.len ≤ nfi) → nfi ≤ record.length →
      ∀ k (hk : k < fs.length) (hv : k < vs.length),
        slice (writeValues nfi i fs vs record) fs[k].offset fs[k].len =
          fieldImage fs[k] vs[k] record
  | i, f :: fs, v :: vs, record, ordered, inside, hlen, k, hk, hv => by
      have hf := inside f (.head _)
      have rest : ∀ g ∈ fs, g.offset + g.len ≤ nfi := fun g hg => inside g (.tail _ hg)
      have later : ∀ {g}, g ∈ fs → f.offset + f.len ≤ g.offset :=
        fun hg => List.rel_of_pairwise_cons ordered hg
      cases k with
      | zero =>
          simp only [List.getElem_cons_zero]
          rw [writeValues, slice_writeValues_of_disjoint (fun g hg => .inl (later hg))
            (.inl (by omega))]
          exact slice_writeValue_self (by omega) (by omega)
      | succ k =>
          simp only [List.getElem_cons_succ]
          have hk' : k < fs.length := by simpa using hk
          have mem := List.getElem_mem hk'
          rw [writeValues, writeValues_slice ordered.of_cons rest
            (by rw [length_writeValue]; exact hlen) k hk' (by simpa using hv)]
          exact fieldImage_congr
            (slice_writeValue_of_disjoint (.inr (later mem)) (.inl (by have := rest _ mem; omega)))
  | _, [], _, _, _, _, _, _, hk, _ => absurd hk (Nat.not_lt_zero _)
  | _, _ :: _, [], _, _, _, _, _, _, hv => absurd hv (Nat.not_lt_zero _)

/-- After the copy loop, the flag byte of user field `k` holds that value's null flag. -/
theorem writeValues_flag :
    ∀ {i : Nat} {fs : List FieldMeta} {vs : List Value} {record : Bytes},
      (∀ f ∈ fs, f.offset + f.len ≤ nfi) → nfi + i + fs.length ≤ record.length →
      ∀ k, k < fs.length → ∀ (hv : k < vs.length),
        (writeValues nfi i fs vs record)[nfi + i + k]? = some (if vs[k].isNull then 1 else 0)
  | i, f :: fs, v :: vs, record, inside, hlen, k, hk, hv => by
      have rest : ∀ g ∈ fs, g.offset + g.len ≤ nfi := fun g hg => inside g (.tail _ hg)
      simp only [List.length_cons] at hlen
      cases k with
      | zero =>
          rw [writeValues, getElem?_writeValues_of_ne
            (fun g hg => .inr (by have := rest g hg; omega)) (.inl (by omega))]
          exact getElem?_writeValue_flag (by omega)
      | succ k =>
          have := @writeValues_flag (i + 1) fs vs (writeValue nfi record i f v) rest
            (by rw [length_writeValue]; omega) k (by simpa using hk) (by simpa using hv)
          rw [writeValues, show nfi + i + (k + 1) = nfi + (i + 1) + k by omega, this]
          rfl
  | _, [], _, _, _, _, _, hk, _ => absurd hk (Nat.not_lt_zero _)
  | _, _ :: _, [], _, _, _, _, _, hv => absurd hv (Nat.not_lt_zero _)

end Loop

/-! ### The per-record update's writes -/

section Update

variable {m : TableMeta} {data : Bytes} {i : Nat} {field : FieldMeta} {value : Value}

@[simp] theorem length_updateField : (updateField m data i field value).length = data.length := by
  simp [updateField]

/-- The update writes the field's bytes and one flag byte, and nothing else. -/
theorem getElem?_updateField_of_ne {p : Nat} (hf : p < field.offset ∨ field.offset + field.len ≤ p)
    (hflag : p ≠ m.lastFieldEnd + i - 1) : (updateField m data i field value)[p]? = data[p]? := by
  rw [updateField, getElem?_memcpy_of_lt (by omega), getElem?_memcpy_of_lt hf]

/-- The flag byte the update writes holds the value's null flag. -/
theorem getElem?_updateField_flag (h : m.lastFieldEnd + i - 1 < data.length) :
    (updateField m data i field value)[m.lastFieldEnd + i - 1]? =
      some (if value.isNull then 1 else 0) := by
  rw [updateField, getElem?_memcpy_of_le le_rfl (by omega) (by rwa [length_memcpy])]
  simp

end Update

/-! ### `make_record` -/

theorem checkLegal_eq_success_iff : ∀ {vs : List Value} {fs : List FieldMeta},
    checkLegal vs fs = .success ↔
      ∀ k (hv : k < vs.length) (hf : k < fs.length), isLegal vs[k] fs[k] = .success
  | v :: vs, f :: fs => by
      have ih := @checkLegal_eq_success_iff vs fs
      by_cases head : isLegal v f = .success
      · simp only [checkLegal, head, ne_eq, not_true_eq_false, if_false, ih]
        constructor
        · intro rest k hv hf
          cases k with
          | zero => exact head
          | succ k => exact rest k (by simpa using hv) (by simpa using hf)
        · intro all k hv hf
          exact all (k + 1) (by simpa using hv) (by simpa using hf)
      · simp only [checkLegal, head, ne_eq, not_false_eq_true, if_true, false_iff]
        exact fun all => head (all 0 (by simp) (by simp))
  | [], _ => by simp [checkLegal]
  | _ :: _, [] => by simp [checkLegal]

/-- `make_record` fails exactly on a wrong arity or a value `is_legal` rejects. -/
theorem makeRecord_error_iff (m : TableMeta) (values : List Value) :
    (∃ rc, makeRecord m values = .error rc) ↔
      values.length + m.sysFieldNum ≠ m.fieldNum ∨
        ∃ k, ∃ (hv : k < values.length) (hf : k < m.userFields.length),
          isLegal values[k] m.userFields[k] ≠ .success := by
  have legal := @checkLegal_eq_success_iff values m.userFields
  unfold makeRecord
  split_ifs with arity bad
  · simp [arity]
  · simp only [Except.error.injEq, exists_eq', ne_eq, arity, not_false_eq_true, not_true_eq_false,
      false_or, true_iff]
    by_contra none
    push_neg at none
    exact bad (legal.mpr none)
  · simp only [ne_eq, arity, not_false_eq_true, not_true_eq_false, false_or]
    constructor
    · rintro ⟨_, ⟨⟩⟩
    · rintro ⟨k, hv, hf, rejected⟩
      exact absurd (legal.mp (not_not.mp bad) k hv hf) rejected

theorem makeRecord_eq_ok {m : TableMeta} {values : List Value} {record : Bytes}
    (h : makeRecord m values = .ok record) :
    values.length + m.sysFieldNum = m.fieldNum ∧
      record = writeValues m.nullFieldIndex 0 m.userFields values
        (List.replicate (m.recordSize + values.length) 0) := by
  unfold makeRecord at h
  split_ifs at h with arity bad
  · exact ⟨not_not.mp arity, by rw [← m.lastFieldEnd_eq]; exact (Except.ok.inj h).symm⟩

theorem makeRecord_error_ne_success {m : TableMeta} {values : List Value} {rc : RC}
    (h : makeRecord m values = .error rc) : rc ≠ .success := by
  unfold makeRecord at h
  split_ifs at h with arity bad <;> cases h
  · decide
  · exact bad

/-- What `make_record` builds: it fails exactly on a wrong arity or a value `is_legal`
rejects; otherwise each non-null value's buffer starts its field (as far as the buffer
and the field both reach), every null flag sits in the bitmap, and the fields lie apart
from each other and before the bitmap. -/
theorem makeRecord_encodes_row (m : TableMeta) (values : List Value) :
    ((∃ rc, makeRecord m values = .error rc) ↔
      values.length + m.sysFieldNum ≠ m.fieldNum ∨
        ∃ k, ∃ (hv : k < values.length) (hf : k < m.userFields.length),
          isLegal values[k] m.userFields[k] ≠ .success) ∧
    m.userFields.Pairwise (fun f g => f.offset + f.len ≤ g.offset) ∧
    ∀ record, makeRecord m values = .ok record →
      ∀ k (hv : k < values.length) (hf : k < m.userFields.length),
        m.userFields[k].offset + m.userFields[k].len ≤ m.nullFieldIndex ∧
        (values[k].isNull = false →
          (slice record m.userFields[k].offset m.userFields[k].len).take values[k].data.length =
            values[k].data.take m.userFields[k].len) ∧
        record[m.nullFieldIndex + k]? = some (if values[k].isNull then 1 else 0) := by
  refine ⟨makeRecord_error_iff m values, m.userFields_pairwise, ?_⟩
  intro record built k hv hf
  obtain ⟨arity, rfl⟩ := makeRecord_eq_ok built
  have inside : ∀ f ∈ m.userFields, f.offset + f.len ≤ m.nullFieldIndex :=
    fun _ mem => m.userField_end_le mem
  have room : m.nullFieldIndex + m.userFields.length ≤ m.recordSize + values.length := by
    have := m.payload_le
    rw [m.length_userFields]; unfold TableMeta.nullFieldIndex; omega
  refine ⟨inside _ (List.getElem_mem hf), fun notNull => ?_, ?_⟩
  · rw [writeValues_slice m.userFields_pairwise inside (by simp; omega) k hf hv]
    simp [fieldImage, notNull, take_readBytes]
  · simpa using @writeValues_flag _ 0 _ _ _ inside (by simpa using room) k hf hv

/-- A table `t(a INT(2))`: the grammar's `ID type ( number )` gives any column the
length written. -/
def shortIntTable : TableMeta where
  name := "t"
  sysFieldNum := 1
  fields := [⟨"__trx", .ints, 0, 4, false⟩, ⟨"a", .ints, 4, 2, false⟩]
  indexes := []
  recordSize := 6
  contiguous := ⟨rfl, rfl, trivial⟩
  has_user_field := by decide
  has_trx_field := by decide
  payload_le := by decide

/-- `make_record` accepts the int `1` for `a INT(2)` and stores two of its four bytes, so
reading the field back does not give the 4-byte int. -/
theorem makeRecord_short_int_field :
    isLegal (valueInitInteger 1 false) ⟨"a", .ints, 4, 2, false⟩ = .success ∧
      ∃ record, makeRecord shortIntTable [valueInitInteger 1 false] = .ok record ∧
        slice record 4 2 ≠ (valueInitInteger 1 false).data :=
  ⟨by decide, _, rfl, by decide⟩

/-- What the heap stores of a record `make_record` builds: `record_size + field_num` bytes
read from the image, which is shorter. Every user field and every null flag lies inside the
image, so each field holds the image its own turn of the loop wrote and each null flag sits
in the bitmap. -/
theorem readBytes_makeRecord {m : TableMeta} {values : List Value} {data : Bytes}
    (built : makeRecord m values = .ok data) (k : Nat) (hv : k < values.length)
    (hf : k < m.userFields.length) :
    slice (readBytes data (m.recordSize + m.fieldNum)) m.userFields[k].offset m.userFields[k].len =
      fieldImage m.userFields[k] values[k] (List.replicate (m.recordSize + values.length) 0) ∧
    (readBytes data (m.recordSize + m.fieldNum))[m.nullFieldIndex + k]? =
      some (if values[k].isNull then 1 else 0) := by
  obtain ⟨arity, rfl⟩ := makeRecord_eq_ok built
  have inside : ∀ f ∈ m.userFields, f.offset + f.len ≤ m.nullFieldIndex :=
    fun _ mem => m.userField_end_le mem
  have room : m.nullFieldIndex + m.userFields.length ≤ m.recordSize + values.length := by
    have := m.payload_le
    rw [m.length_userFields]; unfold TableMeta.nullFieldIndex; omega
  have len := length_writeValues m.nullFieldIndex 0 m.userFields values
    (List.replicate (m.recordSize + values.length) 0)
  rw [List.length_replicate] at len
  have stored := len.trans_le
    (show m.recordSize + values.length ≤ m.recordSize + m.fieldNum by omega)
  refine ⟨?_, ?_⟩
  · have := inside _ (List.getElem_mem hf)
    rw [slice_readBytes_of_le (by omega) stored]
    exact writeValues_slice m.userFields_pairwise inside (by simp; omega) k hf hv
  · rw [getElem?_readBytes_of_lt (by omega) stored]
    simpa using @writeValues_flag _ 0 _ _ _ inside (by simpa using room) k hf hv

/-- A field image keeps the first bytes of what the turn copied: the value's buffer, or
for a null value its type's sentinel, as far as both it and the field reach. -/
theorem take_fieldImage {f : FieldMeta} {v : Value} {record : Bytes} :
    (v.isNull = false → (fieldImage f v record).take v.data.length = v.data.take f.len) ∧
      ∀ s, v.isNull = true → nullSentinel f.type = some s →
        (fieldImage f v record).take s.length = s.take f.len := by
  refine ⟨fun notNull => ?_, fun s null sentinel => ?_⟩
  · simp [fieldImage, notNull, take_readBytes]
  · simp [fieldImage, null, sentinel, take_readBytes]

end Miniob
