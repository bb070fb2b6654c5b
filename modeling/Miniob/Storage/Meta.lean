import Mathlib.Data.List.Basic
import Miniob.Parse.Value

/-!
Table metadata: `FieldMeta`, `IndexMeta`, `TableMeta`.

Modelled from the spec: `table_meta.cpp` is not in the sources. §3 fixes the layout,
`[ sys fields | user field 1 | … | user field N | null bitmap ]`, with offsets assigned
at creation and the first `sys_field_num` fields reserved for transaction bookkeeping.
`TableMeta` carries that layout as fields, so a meta with overlapping or misplaced fields
cannot be built: the fields lie back to back from offset 0 (`contiguous`), at least one
user field follows the sys fields (`Table::create` rejects an empty attribute list), and
the first sys field is the 4-byte transaction word `Trx` stamps. `record_size()` is kept
as a number at least the payload's end; the code puts the null bitmap at that end
(`null_field_index`) and allocates one byte per user field for it on top of
`record_size`.

The lookups are the ones `table.cpp` calls: `field(i)`, `field(name)`,
`find_field_index_by_name`, `find_field_by_offset`, `index(name)` and
`find_index_by_field`, each the first match in declaration order.
-/

namespace Miniob

/-- `FieldMeta`: a column's name, type, place in the record and nullability. -/
structure FieldMeta where
  name : String
  type : AttrType
  offset : Nat
  len : Nat
  nullable : Bool
  deriving DecidableEq, Repr

/-- `IndexMeta`: an index's name and the one field it is built on. -/
structure IndexMeta where
  name : String
  field : String
  deriving DecidableEq, Repr

/-- Fields laid out back to back from `start`. -/
def Contiguous : Nat → List FieldMeta → Prop
  | _, [] => True
  | start, f :: fs => f.offset = start ∧ Contiguous (start + f.len) fs

/-- Where the payload area of a record ends: the sum of all field lengths. -/
def payloadEnd : List FieldMeta → Nat
  | [] => 0
  | f :: fs => f.len + payloadEnd fs

@[simp] theorem payloadEnd_nil : payloadEnd [] = 0 := rfl

@[simp] theorem payloadEnd_cons (f : FieldMeta) (fs : List FieldMeta) :
    payloadEnd (f :: fs) = f.len + payloadEnd fs := rfl

@[simp] theorem payloadEnd_append : ∀ fs gs : List FieldMeta,
    payloadEnd (fs ++ gs) = payloadEnd fs + payloadEnd gs
  | [], _ => by simp
  | f :: fs, gs => by simp [payloadEnd_append fs gs, Nat.add_assoc]

/-- `TableMeta`, with the record layout as an invariant. -/
structure TableMeta where
  name : String
  sysFieldNum : Nat
  fields : List FieldMeta
  indexes : List IndexMeta
  recordSize : Nat
  contiguous : Contiguous 0 fields
  has_user_field : sysFieldNum < fields.length
  has_trx_field : 0 < sysFieldNum ∧ (fields.map FieldMeta.len)[0]? = some 4
  payload_le : payloadEnd fields ≤ recordSize

namespace TableMeta

variable (m : TableMeta)

/-- `field_num()`. -/
def fieldNum : Nat := m.fields.length

/-- `field(i)`. -/
def field (i : Nat) : Option FieldMeta := m.fields[i]?

/-- `field(name)`. -/
def fieldByName (name : String) : Option FieldMeta := m.fields.find? (·.name == name)

/-- `find_field_index_by_name(name)`, with `-1` as `none`. -/
def findFieldIndexByName (name : String) : Option Nat := m.fields.findIdx? (·.name == name)

/-- `find_field_by_offset(offset)`. -/
def findFieldByOffset (offset : Nat) : Option FieldMeta := m.fields.find? (·.offset == offset)

/-- `index(name)`. -/
def index (name : String) : Option IndexMeta := m.indexes.find? (·.name == name)

/-- `find_index_by_field(field_name)`. -/
def findIndexByField (fieldName : String) : Option IndexMeta :=
  m.indexes.find? (·.field == fieldName)

/-- `add_index(index_meta)`: the index joins the list. -/
def addIndex (im : IndexMeta) : TableMeta := { m with indexes := m.indexes ++ [im] }

/-- `null_field_index`: the offset of the null bitmap, just past the last field. -/
def nullFieldIndex : Nat := payloadEnd m.fields

/-- The user fields, in declaration order. -/
def userFields : List FieldMeta := m.fields.drop m.sysFieldNum

@[simp] theorem addIndex_fields (im : IndexMeta) : (m.addIndex im).fields = m.fields := rfl
@[simp] theorem addIndex_sysFieldNum (im : IndexMeta) :
    (m.addIndex im).sysFieldNum = m.sysFieldNum := rfl
@[simp] theorem addIndex_recordSize (im : IndexMeta) :
    (m.addIndex im).recordSize = m.recordSize := rfl

end TableMeta

/-! ### Where each field lies -/

theorem Contiguous.offset_eq : ∀ {start : Nat} {fs : List FieldMeta}, Contiguous start fs →
    ∀ k (hk : k < fs.length), fs[k].offset = start + payloadEnd (fs.take k)
  | _, [], _, k, hk => absurd hk (Nat.not_lt_zero k)
  | start, f :: fs, ⟨head, tail⟩, k, hk => by
      cases k with
      | zero => simp [head]
      | succ k =>
          have := tail.offset_eq k (by simpa using hk)
          simp only [List.getElem_cons_succ, this, List.take_succ_cons, payloadEnd_cons]
          omega

theorem Contiguous.start_le : ∀ {start : Nat} {fs : List FieldMeta}, Contiguous start fs →
    ∀ g ∈ fs, start ≤ g.offset
  | _, [], _, _, hg => absurd hg (List.not_mem_nil _)
  | _, _ :: _, ⟨head, tail⟩, g, hg => by
      rcases List.mem_cons.mp hg with rfl | hg
      · exact head.ge
      · have := tail.start_le g hg; omega

/-- Back-to-back fields are ordered: each ends before any later one starts. -/
theorem Contiguous.pairwise : ∀ {start : Nat} {fs : List FieldMeta}, Contiguous start fs →
    fs.Pairwise (fun f g => f.offset + f.len ≤ g.offset)
  | _, [], _ => .nil
  | _, _ :: _, ⟨head, tail⟩ =>
      .cons (fun g hg => head ▸ tail.start_le g hg) tail.pairwise

/-- Every field of a back-to-back layout ends inside the layout. -/
theorem Contiguous.end_le : ∀ {start : Nat} {fs : List FieldMeta}, Contiguous start fs →
    ∀ g ∈ fs, g.offset + g.len ≤ start + payloadEnd fs
  | _, [], _, _, hg => absurd hg (List.not_mem_nil _)
  | _, f :: fs, ⟨head, tail⟩, g, hg => by
      have := tail.end_le
      rw [payloadEnd_cons]
      rcases List.mem_cons.mp hg with rfl | hg
      · omega
      · have := this g hg; omega

theorem payloadEnd_take_succ {fs : List FieldMeta} {k : Nat} (hk : k < fs.length) :
    payloadEnd (fs.take (k + 1)) = payloadEnd (fs.take k) + fs[k].len := by
  rw [List.take_succ, List.getElem?_eq_getElem hk, Option.toList_some, payloadEnd_append,
    payloadEnd_cons, payloadEnd_nil, Nat.add_zero]

theorem payloadEnd_take_mono {fs : List FieldMeta} {k k' : Nat} (h : k ≤ k') :
    payloadEnd (fs.take k) ≤ payloadEnd (fs.take k') := by
  obtain ⟨d, rfl⟩ := Nat.exists_eq_add_of_le h
  simp only [List.take_add, payloadEnd_append]
  omega

theorem payloadEnd_take_le (fs : List FieldMeta) (k : Nat) :
    payloadEnd (fs.take k) ≤ payloadEnd fs := by
  have h := @payloadEnd_take_mono fs _ _ (Nat.le_add_right k fs.length)
  rwa [@List.take_of_length_le _ (k + fs.length) fs (by omega)] at h

namespace TableMeta

variable (m : TableMeta)

/-- The user fields are ordered and disjoint. -/
theorem userFields_pairwise :
    m.userFields.Pairwise (fun f g => f.offset + f.len ≤ g.offset) :=
  m.contiguous.pairwise.sublist (List.drop_sublist _ _)

/-- Every user field ends at or before the null bitmap. -/
theorem userField_end_le {f : FieldMeta} (hf : f ∈ m.userFields) :
    f.offset + f.len ≤ m.nullFieldIndex := by
  simpa using m.contiguous.end_le f (List.mem_of_mem_drop hf)

theorem length_userFields : m.userFields.length = m.fieldNum - m.sysFieldNum := by
  simp [userFields, fieldNum]

/-- Field `k` starts after every field before it. -/
theorem offset_eq {k : Nat} (hk : k < m.fields.length) :
    m.fields[k].offset = payloadEnd (m.fields.take k) := by
  simpa using m.contiguous.offset_eq k hk

/-- Every field ends at or before the null bitmap. -/
theorem field_end_le {k : Nat} (hk : k < m.fields.length) :
    m.fields[k].offset + m.fields[k].len ≤ m.nullFieldIndex := by
  rw [offset_eq, ← payloadEnd_take_succ hk]
  exact payloadEnd_take_le _ _

/-- A field ends where a later one starts, or before. -/
theorem field_end_le_offset {k k' : Nat} (hk : k < k') (hk' : k' < m.fields.length) :
    m.fields[k].offset + m.fields[k].len ≤ m.fields[k'].offset := by
  rw [offset_eq, offset_eq, ← payloadEnd_take_succ (by omega)]
  exact payloadEnd_take_mono hk

/-- Two distinct fields occupy disjoint byte ranges. -/
theorem fields_disjoint {k k' : Nat} (hne : k ≠ k') (hk : k < m.fields.length)
    (hk' : k' < m.fields.length) :
    m.fields[k].offset + m.fields[k].len ≤ m.fields[k'].offset ∨
      m.fields[k'].offset + m.fields[k'].len ≤ m.fields[k].offset := by
  rcases Nat.lt_or_gt_of_ne hne with h | h
  · exact .inl (m.field_end_le_offset h hk')
  · exact .inr (m.field_end_le_offset h hk)

/-- The last field ends at the null bitmap. -/
theorem last_field_end {k : Nat} (hk : k < m.fields.length) (last : k + 1 = m.fields.length) :
    m.fields[k].offset + m.fields[k].len = m.nullFieldIndex := by
  rw [offset_eq, ← payloadEnd_take_succ hk, last, List.take_length]
  rfl

/-- The four-byte trx field comes first, so the null bitmap starts at byte 4 or later. -/
theorem four_le_nullFieldIndex : 4 ≤ m.nullFieldIndex := by
  have first := m.has_trx_field.2
  unfold nullFieldIndex
  cases hf : m.fields with
  | nil => simp [hf] at first
  | cons f fs =>
    simp only [hf, List.map_cons, List.getElem?_cons_zero, Option.some.injEq] at first
    rw [payloadEnd_cons]
    omega

theorem four_le_recordSize : 4 ≤ m.recordSize + m.fieldNum := by
  have := m.four_le_nullFieldIndex
  have := m.payload_le
  unfold nullFieldIndex at *
  omega

/-- User fields start past the four bytes of the trx field. -/
theorem four_le_offset {f : FieldMeta} (hf : f ∈ m.userFields) : 4 ≤ f.offset := by
  obtain ⟨q, hq, rfl⟩ := List.mem_drop_iff_getElem.1 hf
  have sys := m.has_trx_field
  have h0 : 0 < m.fields.length := by omega
  have first : m.fields[0].len = 4 := by simpa [List.getElem?_eq_getElem h0] using sys.2
  have start : m.fields[0].offset = 0 := by simpa using m.offset_eq h0
  have := m.field_end_le_offset (show 0 < m.sysFieldNum + q by omega) (by omega)
  omega

theorem getElem_mem_userFields {i : Nat} (hs : m.sysFieldNum ≤ i) (hi : i < m.fields.length) :
    m.fields[i] ∈ m.userFields :=
  List.mem_drop_iff_getElem.2 ⟨i - m.sysFieldNum, by omega, by simp only [Nat.add_sub_cancel' hs]⟩

/-- A field other than field `i` lies wholly before it or wholly after it. -/
theorem disjoint_of_ne {f : FieldMeta} (hf : f ∈ m.fields) {i : Nat} (hi : i < m.fields.length)
    (hne : f ≠ m.fields[i]) :
    f.offset + f.len ≤ m.fields[i].offset ∨ m.fields[i].offset + m.fields[i].len ≤ f.offset := by
  obtain ⟨p, hp, rfl⟩ := List.mem_iff_getElem.1 hf
  exact m.fields_disjoint (fun e => hne (by subst e; rfl)) hp hi

/-- A field found by name is one of the fields. -/
theorem lt_of_findFieldIndexByName {name : String} {i : Nat}
    (h : m.findFieldIndexByName name = some i) : i < m.fields.length := by
  obtain ⟨lt, -⟩ := List.findIdx?_eq_some_iff_getElem.1 h
  exact lt

end TableMeta

end Miniob
