import Miniob.Storage.Rollback

/-!
The null bitmap, and what the per-record `update_record` writes (`table.cpp`).

`make_record` writes the flag of user field `k` at `null_field_index + k`. The per-record
`update_record` writes the flag of field `i`, counted over all fields, at
`null_field_index + i - 1`. With one sys field the two agree on every user field, and the
update changes nothing but that field and that flag (`updateField_frame`). Named by the
sys field, the update writes its flag into the last byte of the last user field
(`update_trx_field_clobbers_last_field`).

`NotNullRespected m data`: no user field that is not nullable has its flag set. Every
record `make_record` builds from values the grammar builds keeps it
(`notNullRespected_makeRecord`), and so does every per-record update with such a value
(`notNullRespected_updateField`). So any run of `INSERT`s and `UPDATE`s with such values,
with any outcome of every call, keeps it on the whole heap (`notNullRespected_run`).
`value_init_integer(v, 1)` builds an `INTS` value that is null, which `is_legal` accepts
for a non-nullable column (`null_int_value_flags_non_nullable_field`).

A NULL value goes into a field as the type's sentinel in `make_record`, but as the
literal's bytes in the per-record update (`update_null_writes_literal`).
-/

namespace Miniob

/-- A value the grammar builds, accepted by `is_legal` for a field, is NULL only if the
field is nullable. -/
theorem GrammarValue.nullable_of_isLegal {v : Value} {f : FieldMeta} (built : GrammarValue v)
    (legal : isLegal v f = .success) (null : v.isNull = true) : f.nullable = true := by
  have nulls := built.isNull_iff.1 null
  unfold isLegal at legal
  by_contra notNullable
  simp [nulls, notNullable] at legal

/-- No user field that is not nullable has its null flag set. -/
def NotNullRespected (m : TableMeta) (data : Bytes) : Prop :=
  ∀ k (hk : k < m.userFields.length), m.userFields[k].nullable = false →
    data[m.nullFieldIndex + k]? ≠ some 1

instance (m : TableMeta) (data : Bytes) : Decidable (NotNullRespected m data) :=
  inferInstanceAs (Decidable (∀ k (_ : k < m.userFields.length), _))

/-- A buffer keeps the property when every set byte of its bitmap was set before. -/
theorem NotNullRespected.mono {m : TableMeta} {data data' : Bytes} (h : NotNullRespected m data)
    (flags : ∀ p, m.nullFieldIndex ≤ p → data'[p]? = some 1 → data[p]? = some 1) :
    NotNullRespected m data' :=
  fun k hk hn set => h k hk hn (flags _ (Nat.le_add_right _ _) set)

theorem NotNullRespected.readBytes {m : TableMeta} {data : Bytes} (h : NotNullRespected m data)
    (n : Nat) : NotNullRespected m (Miniob.readBytes data n) :=
  h.mono fun p _ set => by
    rw [getElem?_readBytes] at set
    split at set
    · rw [Option.some.injEq, List.getD_eq_getElem?_getD] at set
      cases hd : data[p]? with
      | none => simp [hd] at set
      | some b => simpa [hd] using set
    · cases set

/-- Stamping the trx header leaves the bitmap alone. -/
theorem NotNullRespected.stampTrx {m : TableMeta} {data : Bytes} (h : NotNullRespected m data)
    (trx : Option Trx) : NotNullRespected m (Miniob.stampTrx trx data) :=
  h.mono fun p hp set => by
    have := m.four_le_nullFieldIndex
    cases trx with
    | none => exact set
    | some t => rwa [Miniob.stampTrx, initTrxInfo, setTrxWord,
        getElem?_memcpy_of_lt (.inr (by omega))] at set

theorem checkLegal_of_makeRecord_eq_ok {m : TableMeta} {values : List Value} {record : Bytes}
    (h : makeRecord m values = .ok record) : checkLegal values m.userFields = .success := by
  unfold makeRecord at h
  split_ifs at h with arity bad
  exact not_not.1 bad

/-- `make_record` sets no flag of a non-nullable field from values the grammar builds. -/
theorem notNullRespected_makeRecord {m : TableMeta} {values : List Value} {record : Bytes}
    (built : ∀ v ∈ values, GrammarValue v) (h : makeRecord m values = .ok record) :
    NotNullRespected m record := by
  have legal := checkLegal_eq_success_iff.1 (checkLegal_of_makeRecord_eq_ok h)
  obtain ⟨arity, rfl⟩ := makeRecord_eq_ok h
  intro k hkf hn set
  have hkv : k < values.length := by rw [m.length_userFields] at hkf; unfold TableMeta.fieldNum at *; omega
  have inside : ∀ f ∈ m.userFields, f.offset + f.len ≤ m.nullFieldIndex :=
    fun _ hf => m.userField_end_le hf
  have room : m.nullFieldIndex + 0 + m.userFields.length ≤
      (List.replicate (m.recordSize + values.length) 0 : Bytes).length := by
    have := m.payload_le
    rw [m.length_userFields]; unfold TableMeta.nullFieldIndex TableMeta.fieldNum at *; simp; omega
  have flag := @writeValues_flag m.nullFieldIndex 0 m.userFields values _ inside room k hkf hkv
  rw [Nat.add_zero] at flag
  rw [flag, Option.some.injEq] at set
  have null : values[k].isNull = true := by by_contra hnull; simp [hnull] at set
  have := (built _ (List.getElem_mem hkv)).nullable_of_isLegal (legal k hkv hkf) null
  rw [hn] at this
  contradiction

/-- With one sys field, the per-record update of a value the grammar builds, accepted by
`is_legal`, sets no flag of a non-nullable field that was clear. -/
theorem notNullRespected_updateField {m : TableMeta} {data : Bytes} {i : Nat} {field : FieldMeta}
    {value : Value} (sys : m.sysFieldNum = 1) (h : NotNullRespected m data)
    (built : GrammarValue value) (hf : m.field i = some field)
    (legal : isLegal value field = .success) :
    NotNullRespected m (updateField m data i field value) := by
  obtain ⟨hi, rfl⟩ := List.getElem?_eq_some_iff.1 hf
  have fieldEnd := m.field_end_le hi
  have := m.four_le_nullFieldIndex
  intro k hk hn set
  by_cases hp : m.nullFieldIndex + k = m.lastFieldEnd + i - 1
  · rw [m.lastFieldEnd_eq] at hp
    have hfield : m.userFields[k] = m.fields[i] := by
      simp only [TableMeta.userFields, List.getElem_drop, sys, show 1 + k = i by omega]
    have null : value.isNull = true := by
      by_cases hlen : m.lastFieldEnd + i - 1 < data.length
      · rw [hp, ← m.lastFieldEnd_eq, getElem?_updateField_flag hlen, Option.some.injEq] at set
        by_contra hnull
        simp [hnull] at set
      · rw [m.lastFieldEnd_eq] at hlen
        rw [List.getElem?_eq_none (by rw [length_updateField]; omega)] at set
        cases set
    have := built.nullable_of_isLegal legal null
    rw [← hfield, hn] at this
    contradiction
  · rw [getElem?_updateField_of_ne (.inr (by omega)) hp] at set
    exact h k hk hn set

/-! ### Over runs -/

theorem insertRecordValues_keepsNotNull (m : TableMeta) {trx : Option Trx} {values : List Value}
    (built : ∀ v ∈ values, GrammarValue v) (w : World) :
    (keepsHeap m (NotNullRespected m)).rel w ((insertRecordValues trx values).run w).2 :=
  fun hm all => by
    subst hm
    refine insertRecordValues_rel w (fun data made => insertRecord_preserves
      (fun size => rhInsertRecord_keepsHeap
        (((notNullRespected_makeRecord built made).stampTrx trx).readBytes size))
      rhDeleteRecord_keepsHeap
      (fun rid => .keepsHeap_of_heap fun w => by rw [logInsert_table]; exact ⟨rfl, rfl⟩)
      (fun k rid => .keepsHeap_of_heap (indexInsertEntry_heap k _ rid))
      (fun k rid => .keepsHeap_of_heap (indexDeleteEntry_heap k _ rid))) rfl all

/-- With one sys field, the per-record update of a value the grammar builds keeps the
property on the heap, and touches no other record. -/
theorem updaterReader_keepsNotNull (m : TableMeta) (sys : m.sysFieldNum = 1) (trx : Option Trx)
    {attributeName : String} {value : Value} (built : GrammarValue value) :
    ReaderSpec trx (updaterReader attributeName value) (keepsHeap m (NotNullRespected m)) := by
  intro r count w cur _
  have mem := (RecordFileHandler.get_eq_some_iff.1 cur).1
  have same : ((updaterReader attributeName value r count).run w).2 =
      ((updateRecordOne r attributeName value).run w).2 := rfl
  rw [same]
  refine ⟨fun hm all => ?_, fun rid ne => ?_⟩
  · subst hm
    exact updateRecordOne_rel w
      (fun _ _ _ hf legal => rhUpdateRecord_keepsHeap
        (notNullRespected_updateField sys (all r mem) built hf legal))
      (rhDeleteRecord_keepsHeap _) (fun k d => .keepsHeap_of_heap (indexInsertEntry_heap k d _))
      (fun k d => .keepsHeap_of_heap (indexDeleteEntry_heap k d _)) rfl all
  · exact updateRecordOne_keepsOthers r attributeName value w rid ne

/-- A session's `INSERT`s and statement-level `UPDATE`s in any order, each with any
outcome, with values as the grammar builds them. -/
inductive GrammarRun (cmp : KeyOrder) : World → World → Prop
  | done (w : World) : GrammarRun cmp w w
  | insert {w w' : World} (trx : Option Trx) (values : List Value)
      (built : ∀ v ∈ values, GrammarValue v) :
      GrammarRun cmp ((insertRecordValues trx values).run w).2 w' → GrammarRun cmp w w'
  | update {w w' : World} (trx : Option Trx) (attributeName : String) (value : Value)
      (conditions : List Condition) (built : GrammarValue value) :
      GrammarRun cmp ((updateRecord cmp trx attributeName value conditions).run w).2 w' →
        GrammarRun cmp w w'

theorem GrammarRun.keepsNotNull {cmp : KeyOrder} {w w' : World} (run : GrammarRun cmp w w')
    (m : TableMeta) (sys : m.sysFieldNum = 1) : (keepsHeap m (NotNullRespected m)).rel w w' := by
  induction run with
  | done w => exact (keepsHeap _ _).refl w
  | insert trx values built _ ih =>
    exact (keepsHeap _ _).trans (insertRecordValues_keepsNotNull m built _) ih
  | update trx attributeName value conditions built _ ih =>
    exact (keepsHeap _ _).trans
      (updateRecord_preserves cmp trx (updaterReader_keepsNotNull m sys trx built) conditions _) ih

/-- With one sys field, no run of `INSERT`s and `UPDATE`s with values the grammar builds,
whatever their calls return, sets the null flag of a non-nullable field: from a heap
where no record has one set, no record has one set after, and the meta is unchanged. -/
theorem notNullRespected_run {cmp : KeyOrder} {w w' : World}
    (sys : w.table.tableMeta.sysFieldNum = 1)
    (start : ∀ r ∈ w.table.recordHandler.records, NotNullRespected w.table.tableMeta r.data)
    (run : GrammarRun cmp w w') :
    w'.table.tableMeta = w.table.tableMeta ∧
      ∀ r ∈ w'.table.recordHandler.records, NotNullRespected w.table.tableMeta r.data :=
  run.keepsNotNull _ sys rfl start

/-- `INSERT INTO t VALUES (5)` then `UPDATE t SET a = 7`: the bitmap of `t`'s heap keeps
`a`'s flag clear. -/
theorem notNullRespected_insert_update :
    intTableWorld.table.tableMeta.sysFieldNum = 1 ∧
      (∀ r ∈ intTableWorld.table.recordHandler.records,
        NotNullRespected intTableWorld.table.tableMeta r.data) ∧
      let w' := ((updateRecord intOrder none "a" (valueInitInteger 7 false) []).run
        ((insertRecordValues none [valueInitInteger 5 false]).run intTableWorld).2).2
      w'.table.tableMeta = intTableWorld.table.tableMeta ∧
        ∀ r ∈ w'.table.recordHandler.records, NotNullRespected intTableWorld.table.tableMeta r.data :=
  ⟨rfl, by decide, notNullRespected_run rfl (by decide)
    (.insert none [valueInitInteger 5 false] (by simpa using GrammarValue.integer 5)
      (.update none "a" (valueInitInteger 7 false) [] (.integer 7) (.done _)))⟩

/-- `value_init_integer(v, 1)` builds a value of type `INTS` that is null. `is_legal`
accepts it for the non-nullable `a` of `t`, and the inserted record has `a`'s flag set. -/
theorem null_int_value_flags_non_nullable_field :
    let r := (insertRecordValues none [valueInitInteger 7 true]).run intTableWorld
    isLegal (valueInitInteger 7 true) ⟨"a", .ints, 4, 4, false⟩ = .success ∧ r.1 = .success ∧
      r.2.table.recordHandler.records.map (·.data) =
        [[0, 0, 0, 0, 1, 0, 0, 0, 0, 0], [0, 0, 0, 0, 0, 0, 0, 0, 1, 0]] ∧
      ¬NotNullRespected intTable [0, 0, 0, 0, 0, 0, 0, 0, 1, 0] := by
  decide

/-! ### What the per-record update writes -/

/-- With one sys field, the per-record update of user field `i` writes the bytes of that
field and the flag byte `make_record` writes for it, `null_field_index + (i - 1)`, and no
other byte. -/
theorem updateField_frame {m : TableMeta} {data : Bytes} {i : Nat} {field : FieldMeta}
    {value : Value} (sys : m.sysFieldNum = 1) (user : m.sysFieldNum ≤ i) (p : Nat)
    (outside : p < field.offset ∨ field.offset + field.len ≤ p)
    (notFlag : p ≠ m.nullFieldIndex + (i - m.sysFieldNum)) :
    (updateField m data i field value)[p]? = data[p]? :=
  getElem?_updateField_of_ne outside (by rw [m.lastFieldEnd_eq]; omega)

/-- `t` holding the committed row `a = 16777216`: the last byte of `a` is `1`. -/
def highByteWorld : World :=
  ⟨⟨intTable, ⟨4, [⟨⟨0, 0⟩, [0, 0, 0, 0, 0, 0, 0, 1, 0, 0]⟩], by decide, by decide⟩, []⟩, [], []⟩

/-- `UPDATE t SET __trx = 5`: `find_field_index_by_name` finds the sys field at `i = 0`,
and the update writes its null flag at `null_field_index - 1`, the last byte of `a`, which
changes from `16777216` to `0`. -/
theorem update_trx_field_clobbers_last_field :
    intTable.findFieldIndexByName "__trx" = some 0 ∧
      let r := (updateRecord intOrder none "__trx" (valueInitInteger 5 false) []).run highByteWorld
      r.1 = (.success, 1) ∧
        r.2.table.recordHandler.records.map (·.data) = [[5, 0, 0, 0, 0, 0, 0, 0, 0, 0]] := by
  decide

/-- A table `t(a INT NULL)`. -/
def nullableIntTable : TableMeta where
  name := "t"
  sysFieldNum := 1
  fields := [⟨"__trx", .ints, 0, 4, false⟩, ⟨"a", .ints, 4, 4, true⟩]
  indexes := []
  recordSize := 8
  contiguous := ⟨rfl, rfl, trivial⟩
  has_user_field := by decide
  has_trx_field := by decide
  payload_le := by decide

/-- `t(a INT NULL)` holding the committed row `a = 1`. -/
def nullableIntWorld : World :=
  ⟨⟨nullableIntTable, ⟨4, [⟨⟨0, 0⟩, [0, 0, 0, 0, 1, 0, 0, 0, 0, 0]⟩], by decide, by decide⟩, []⟩,
    [], []⟩

/-- `INSERT` of NULL into `t(a INT NULL)` writes the int sentinel `0` into `a`;
`UPDATE t SET a = NULL` writes the bytes of the literal `"NULL"` there instead. Both set
the flag. -/
theorem update_null_writes_literal :
    makeRecord nullableIntTable [valueInitString ⟨[78, 85, 76, 76], by decide⟩ true] =
        .ok [0, 0, 0, 0, 0, 0, 0, 0, 1] ∧
      ((updateRecord intOrder none "a" (valueInitString ⟨[78, 85, 76, 76], by decide⟩ true)
        []).run nullableIntWorld).1 = (.success, 1) ∧
      ((updateRecord intOrder none "a" (valueInitString ⟨[78, 85, 76, 76], by decide⟩ true)
        []).run nullableIntWorld).2.table.recordHandler.records.map (·.data) =
          [[0, 0, 0, 0, 78, 85, 76, 76, 1, 0]] :=
  ⟨rfl, by decide, by decide⟩

end Miniob
