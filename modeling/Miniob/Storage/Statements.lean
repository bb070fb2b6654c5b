import Miniob.Storage.Catalog

/-!
What the statements `DELETE` and `UPDATE` do to the table, when every collaborator call
succeeds and no index serves the filter, so that `scan_record` reads the heap.

`DELETE FROM t WHERE filter` without a transaction takes exactly the records that pass the
filter out of the heap, keeps the indexes up to date, and reports how many it took
(`deleteRecords_removes_matching`). `UPDATE t SET a = v WHERE conditions`, the update safe in
the sense of `UpdateSafe`, rewrites the field in exactly the records that pass the filter the
conditions build, keeps the indexes up to date, and reports how many it rewrote
(`updateRecord_rewrites_matching`).

Both rest on a loop lemma over the records the heap scan hands over (`scanHeap_deleter`,
`scanHeap_updater`): one record's step is the per-record lemma of `FaultFree`, and the run
follows by induction on the records, the `Settled` invariant of `IndexRun` carried along.

`INSERT` then `SELECT *`, without a transaction: the scan hands over the rows there were and
one new row at a fresh address, whose fields read back as the values inserted, a NULL one
as its type's sentinel (`insert_then_select`).

When an index serves the filter, both statements scan the index while their readers erase
and insert its entries. The model's scanner is the rid list taken at the start, which a
cursor over the live tree follows only while the index is not written, so nothing is
claimed here about that path.
-/

namespace Miniob

/-- A heap record's address is among those of the records that pass a test exactly when it
passes the test: addresses are unique. -/
theorem mem_rids_filter_iff {h : RecordFileHandler} {p : Record → Bool} {x : Record}
    (hx : x ∈ h.records) : x.rid ∈ (h.records.filter p).map (·.rid) ↔ p x = true := by
  constructor
  · intro taken
    obtain ⟨y, hy, e⟩ := List.mem_map.1 taken
    rw [← List.inj_on_of_nodup_map h.nodup (List.mem_filter.1 hy).1 hx e]
    exact (List.mem_filter.1 hy).2
  · exact fun hp => List.mem_map_of_mem _ (List.mem_filter.2 ⟨hx, hp⟩)

/-- The records of the heap that pass a test are current and have distinct addresses, and
there is room for them when the heap fits the scan's limit. -/
theorem filter_records_ready {w : World} (p : Record → Bool)
    (fits : w.table.recordHandler.records.length ≤ intMax) :
    (∀ r ∈ w.table.recordHandler.records.filter p, Current w r) ∧
      ((w.table.recordHandler.records.filter p).map (·.rid)).Nodup ∧
      0 + (w.table.recordHandler.records.filter p).length ≤ intMax :=
  ⟨fun r hr => RecordFileHandler.get_eq_some_iff.2 ⟨(List.mem_filter.1 hr).1, rfl⟩,
    w.table.recordHandler.nodup.sublist ((List.filter_sublist _).map _),
    by simpa using (List.length_filter_le _ _).trans fits⟩

/-- The records whose address is among `rids` with `f` applied to their bytes. -/
def rewritten (f : Bytes → Bytes) (rids : List RID) (x : Record) : Record :=
  if x.rid ∈ rids then ⟨x.rid, f x.data⟩ else x

@[simp] theorem rid_rewritten (f : Bytes → Bytes) (rids : List RID) (x : Record) :
    (rewritten f rids x).rid = x.rid := by
  unfold rewritten; split <;> rfl

theorem rewritten_nil (f : Bytes → Bytes) : rewritten f [] = id :=
  funext fun _ => if_neg (List.not_mem_nil _)

/-- Rewriting one heap record in place, then the records at other addresses, is rewriting
them all. -/
theorem records_rewritten_of_update {h h' : RecordFileHandler} {r : Record} {f : Bytes → Bytes}
    (mem : r ∈ h.records) (hu : h.update ⟨r.rid, f r.data⟩ = some h') {rids : List RID}
    (fresh : r.rid ∉ rids) :
    h'.records.map (rewritten f rids) = h.records.map (rewritten f (r.rid :: rids)) := by
  rw [RecordFileHandler.records_update hu, List.map_map]
  refine List.map_congr_left fun x hx => ?_
  by_cases e : x.rid = r.rid
  · obtain rfl := List.inj_on_of_nodup_map h.nodup hx mem e
    simp [rewritten, fresh]
  · simp [rewritten, e]

/-! ### `INSERT`, then `SELECT` -/

/-- `INSERT INTO t VALUES (values)` then `SELECT * FROM t`, without a transaction and every
call succeeding, for values `make_record` accepts: the insert succeeds, and the scan hands
over the whole heap, which is the rows there were and one new row at an address none of
them had. Read back, the new row holds in each field the first bytes of its value, or for a
NULL value those of its type's sentinel, as far as both it and the field reach, and in the
bitmap the value's null flag. -/
theorem insert_then_select {cmp : KeyOrder} {values : List Value} {data : Bytes} {w : World}
    (clean : w.faults = []) (built : makeRecord w.table.tableMeta values = .ok data)
    (fits : w.table.recordHandler.records.length < intMax) :
    ∃ w' r, (insertRecordValues none values).run w = (.success, w') ∧
      r.rid ∉ w.table.recordHandler.rids ∧
      (scanRecord cmp none collectReader none (-1) []).run w' =
        ((.success, w'.table.recordHandler.records), w') ∧
      w'.table.recordHandler.records.Perm (r :: w.table.recordHandler.records) ∧
      ∀ k (hv : k < values.length) (hf : k < w.table.tableMeta.userFields.length),
        (values[k].isNull = false →
          (slice r.data w.table.tableMeta.userFields[k].offset
            w.table.tableMeta.userFields[k].len).take values[k].data.length =
            values[k].data.take w.table.tableMeta.userFields[k].len) ∧
        (∀ s, values[k].isNull = true → nullSentinel w.table.tableMeta.userFields[k].type = some s →
          (slice r.data w.table.tableMeta.userFields[k].offset
            w.table.tableMeta.userFields[k].len).take s.length =
            s.take w.table.tableMeta.userFields[k].len) ∧
        r.data[w.table.tableMeta.nullFieldIndex + k]? = some (if values[k].isNull then 1 else 0) := by
  have inserted := insertRecord_run_of_nil clean none data
  refine ⟨_, ⟨w.table.recordHandler.freeSlot, readBytes data
      (w.table.tableMeta.recordSize + w.table.tableMeta.fieldNum)⟩,
    insertRecordValues_run_of_makeRecord clean built, w.table.recordHandler.freeSlot_not_mem, ?_,
    ?_, fun k hv hf => ?_⟩
  · -- with no filter no index serves the scan, and every row passes and is visible
    have clean' : ((insertRecord none data).run w).2.faults = [] := by rw [inserted]; exact clean
    rw [@scanRecord_run_of_heap _ cmp none collectReader none _ clean' rfl, scanHeap_collect, inserted]
    have longer : ((w.table.recordHandler.insert (readBytes data
        (w.table.tableMeta.recordSize + w.table.tableMeta.fieldNum))).2.records).length ≤ intMax := by
      simp [RecordFileHandler.insert, List.orderedInsert_length]; omega
    simp [passes, visibleTo, stampTrx, List.take_of_length_le longer]
  · rw [inserted]
    exact List.perm_orderedInsert _ _ _
  · obtain ⟨image, flag⟩ := readBytes_makeRecord built k hv hf
    rw [image]
    exact ⟨take_fieldImage.1, take_fieldImage.2, flag⟩

/-- `INSERT INTO t VALUES (0)` on `t` holding `a = 1`, then `SELECT * FROM t`. -/
theorem insert_then_select_intTableWorld :
    intTableWorld.faults = [] ∧
      makeRecord intTableWorld.table.tableMeta [valueInitInteger 0 false] =
        .ok [0, 0, 0, 0, 0, 0, 0, 0, 0] ∧
      intTableWorld.table.recordHandler.records.length < intMax ∧
      ∃ w' r, (insertRecordValues none [valueInitInteger 0 false]).run intTableWorld = (.success, w') ∧
        r.rid ∉ intTableWorld.table.recordHandler.rids ∧
        (scanRecord intOrder none collectReader none (-1) []).run w' =
          ((.success, w'.table.recordHandler.records), w') ∧
        w'.table.recordHandler.records.Perm (r :: intTableWorld.table.recordHandler.records) ∧
        ∀ k (_ : k < [valueInitInteger 0 false].length)
          (hf : k < intTableWorld.table.tableMeta.userFields.length),
          ([valueInitInteger 0 false][k].isNull = false →
            (slice r.data intTableWorld.table.tableMeta.userFields[k].offset
              intTableWorld.table.tableMeta.userFields[k].len).take
                [valueInitInteger 0 false][k].data.length =
              [valueInitInteger 0 false][k].data.take intTableWorld.table.tableMeta.userFields[k].len) ∧
          (∀ s, [valueInitInteger 0 false][k].isNull = true →
            nullSentinel intTableWorld.table.tableMeta.userFields[k].type = some s →
            (slice r.data intTableWorld.table.tableMeta.userFields[k].offset
              intTableWorld.table.tableMeta.userFields[k].len).take s.length =
              s.take intTableWorld.table.tableMeta.userFields[k].len) ∧
          r.data[intTableWorld.table.tableMeta.nullFieldIndex + k]? =
            some (if [valueInitInteger 0 false][k].isNull then 1 else 0) :=
  ⟨rfl, rfl, by decide, insert_then_select rfl rfl (by decide)⟩

/-! ### `DELETE` -/

/-- The heap loop of the deleter over current records with distinct addresses, every call
succeeding: each record leaves the heap and every index, and is counted. -/
theorem scanHeap_deleter (limit : Nat) : ∀ (rs : List Record) (count ctx : Nat) (w : World),
    Settled w → (∀ r ∈ rs, Current w r) → (rs.map (·.rid)).Nodup → count + rs.length ≤ limit →
    ((scanHeap none (deleterReader none) limit rs count ctx).run w).1 = (.success, ctx + rs.length) ∧
      Settled ((scanHeap none (deleterReader none) limit rs count ctx).run w).2 ∧
      ((scanHeap none (deleterReader none) limit rs count ctx).run w).2.table.recordHandler.records =
        w.table.recordHandler.records.filter fun x => x.rid ∉ rs.map (·.rid)
  | [], _, ctx, w, hs, _, _, _ => by simp [scanHeap, hs]
  | r :: rs, count, ctx, w, hs, cur, nd, le => by
    have hr := cur r (List.mem_cons_self _ _)
    obtain ⟨h', hd⟩ := RecordFileHandler.delete_of_get hr
    have mem := (RecordFileHandler.get_eq_some_iff.1 hr).1
    obtain ⟨fresh, nd'⟩ := List.nodup_cons.1 nd
    have step : (deleterReader none r ctx).run w = ((.success, ctx + 1),
        (w.setIndexes (w.table.indexes.map (·.eraseEntry r.data r.rid))).setRecordHandler h') := by
      simp only [deleterReader, StateT.run_bind,
        deleteRecord_run_of_mem hs.clean (fun i hi => hs.indexed.mem_entries mem hi) hd]
      rfl
    have rest := scanHeap_deleter limit rs (count + 1) (ctx + 1)
      ((w.setIndexes (w.table.indexes.map fun i : Index => i.eraseEntry r.data r.rid)).setRecordHandler h')
      ⟨hs.clean, hs.indexed.remove hr hd⟩
      (fun r' hr' => (RecordFileHandler.get_delete_of_ne hd
        fun e => fresh (List.mem_map.2 ⟨r', hr', e⟩)).trans (cur r' (List.mem_cons_of_mem _ hr')))
      nd' (by simp at le; omega)
    unfold scanHeap
    simp only [show count < limit by simp at le; omega, if_true, visibleTo, run_bind_eq step, ne_eq,
      not_true_eq_false, if_false]
    refine ⟨by rw [rest.1]; simp [Nat.add_assoc, Nat.add_comm 1], rest.2.1, ?_⟩
    rw [rest.2.2]
    simp only [World.setRecordHandler, RecordFileHandler.records_delete hd, List.filter_filter]
    exact List.filter_congr fun x _ => by simp [bne, Bool.beq_eq_decide_eq, Bool.and_comm]

/-- `DELETE FROM t WHERE filter` without a transaction, every call succeeding, when no
index serves the filter: exactly the records that pass the filter leave the heap, every
index stays up to date, and the count returned is the number of records taken. -/
theorem deleteRecords_removes_matching {cmp : KeyOrder} {filter : Option ConditionFilter}
    {w : World} (clean : w.faults = []) (indexed : Indexed w.table)
    (noIndex : findIndexForScan cmp w.table filter = none)
    (fits : w.table.recordHandler.records.length ≤ intMax) :
    ((deleteRecords cmp none filter).run w).1 =
        (.success, (w.table.recordHandler.records.filter fun r => passes cmp filter r.data).length) ∧
      ((deleteRecords cmp none filter).run w).2.table.recordHandler.records =
        w.table.recordHandler.records.filter (fun r => !passes cmp filter r.data) ∧
      IndexConsistent ((deleteRecords cmp none filter).run w).2.table := by
  obtain ⟨cur, nd, room⟩ := filter_records_ready (fun r => passes cmp filter r.data) fits
  obtain ⟨ok, settled, records⟩ := scanHeap_deleter intMax _ 0 0 w ⟨clean, indexed⟩ cur nd room
  rw [deleteRecords, scanRecord_run_of_heap cmp none _ clean noIndex] at *
  refine ⟨by simpa using ok, records.trans (List.filter_congr fun x hx => ?_),
    settled.indexed.consistent⟩
  simp only [decide_not, mem_rids_filter_iff hx, Bool.decide_eq_true]

/-- `t` holding `a = 1` and, inserted without a transaction, `a = 0`; no index. -/
def twoRowWorld : World := ((insertRecordValues none [valueInitInteger 0 false]).run intTableWorld).2

/-- `DELETE FROM t WHERE a > 0` on the two rows, which no index serves. -/
theorem deleteRecords_aGtZero :
    twoRowWorld.faults = [] ∧ Indexed twoRowWorld.table ∧
      findIndexForScan intOrder twoRowWorld.table (some aGtZero) = none ∧
      twoRowWorld.table.recordHandler.records.length ≤ intMax ∧
      ((deleteRecords intOrder none (some aGtZero)).run twoRowWorld).1 =
        (.success, (twoRowWorld.table.recordHandler.records.filter fun r =>
          passes intOrder (some aGtZero) r.data).length) ∧
      ((deleteRecords intOrder none (some aGtZero)).run twoRowWorld).2.table.recordHandler.records =
        twoRowWorld.table.recordHandler.records.filter (fun r => !passes intOrder (some aGtZero) r.data) ∧
      IndexConsistent ((deleteRecords intOrder none (some aGtZero)).run twoRowWorld).2.table :=
  have start : twoRowWorld.faults = [] ∧ Indexed twoRowWorld.table ∧
      findIndexForScan intOrder twoRowWorld.table (some aGtZero) = none ∧
      twoRowWorld.table.recordHandler.records.length ≤ intMax := by decide
  ⟨start.1, start.2.1, start.2.2.1, start.2.2.2,
    deleteRecords_removes_matching start.1 start.2.1 start.2.2.1 start.2.2.2⟩

/-! ### `UPDATE` -/

section Update

variable {attributeName : String} {value : Value} {m : TableMeta} {i : Nat} {field : FieldMeta}

/-- The per-record update of a current record, made safe and every call succeeding: it
succeeds, leaves the meta alone, and the heap is the one that stores the rewritten bytes. -/
theorem updateRecordOne_run_of_safe {w : World} {r : Record} (hs : Settled w)
    (safe : UpdateSafe w.table attributeName value) (cur : Current w r)
    (hi : w.table.tableMeta.findFieldIndexByName attributeName = some i)
    (hf : w.table.tableMeta.field i = some field) {h' : RecordFileHandler}
    (hu : w.table.recordHandler.update
      ⟨r.rid, updateField w.table.tableMeta r.data i field value⟩ = some h') :
    ((updateRecordOne r attributeName value).run w).1 = .success ∧
      ((updateRecordOne r attributeName value).run w).2.table.tableMeta = w.table.tableMeta ∧
      ((updateRecordOne r attributeName value).run w).2.table.recordHandler = h' := by
  obtain ⟨-, legal, -⟩ := safe i hi field hf
  cases found : findIndex w.table attributeName with
  | none =>
    rw [updateRecordOne_run_of_unindexed hs.clean hi hf legal hu found]
    exact ⟨rfl, rfl, rfl⟩
  | some k =>
    obtain ⟨ix, hk⟩ : ∃ ix, w.table.indexes[k]? = some ix :=
      ⟨_, List.getElem?_eq_getElem (findIndex_lt found)⟩
    rw [updateRecordOne_run_of_indexed hs.clean hi hf legal hu found hk
      (hs.indexed.mem_entries (RecordFileHandler.get_eq_some_iff.1 cur).1 (List.getElem?_mem hk))]
    exact ⟨rfl, rfl, rfl⟩

variable (hi : m.findFieldIndexByName attributeName = some i) (hf : m.field i = some field)
include hi hf

/-- The heap loop of the updater over current records with distinct addresses, the update
safe and every call succeeding: each record has the field rewritten, and is counted. -/
theorem scanHeap_updater (limit : Nat) : ∀ (rs : List Record) (count ctx : Nat) (w : World),
    Settled w → UpdateSafe w.table attributeName value → w.table.tableMeta = m →
    (∀ r ∈ rs, Current w r) → (rs.map (·.rid)).Nodup → count + rs.length ≤ limit →
    let run := (scanHeap none (updaterReader attributeName value) limit rs count ctx).run w
    run.1 = (.success, ctx + rs.length) ∧ Settled run.2 ∧ run.2.table.tableMeta = m ∧
      run.2.table.recordHandler.records =
        w.table.recordHandler.records.map
          (rewritten (fun d => updateField m d i field value) (rs.map (·.rid)))
  | [], _, ctx, w, hs, _, meta, _, _, _ => by
    refine ⟨rfl, hs, meta, ?_⟩
    rw [List.map_nil, rewritten_nil, List.map_id]
    rfl
  | r :: rs, count, ctx, w, hs, safe, meta, cur, nd, le => by
    have hr := cur r (List.mem_cons_self _ _)
    have mem := (RecordFileHandler.get_eq_some_iff.1 hr).1
    obtain ⟨fresh, nd'⟩ := List.nodup_cons.1 nd
    obtain ⟨h', hu⟩ := RecordFileHandler.update_of_get hr (updateField m r.data i field value)
    obtain ⟨ok, sameMeta, heap⟩ :=
      updateRecordOne_run_of_safe hs safe hr (meta ▸ hi) (meta ▸ hf) (meta ▸ hu)
    obtain ⟨⟨clean, steps⟩, safe'⟩ := updateRecordOne_settled r attributeName value hr hs safe
    have step : (updaterReader attributeName value r ctx).run w =
        ((.success, ctx + 1), ((updateRecordOne r attributeName value).run w).2) := by
      simp only [updaterReader, StateT.run_bind, StateT.run_pure, Id.bind_eq, Id.pure_eq, ok, if_true]
    have rest := scanHeap_updater limit rs (count + 1) (ctx + 1) _
      ⟨clean, hs.indexed.steps steps⟩ safe' (sameMeta.trans meta)
      (fun r' hr' => (heap ▸ RecordFileHandler.get_update_of_ne hu
        fun e => fresh (List.mem_map.2 ⟨r', hr', e⟩)).trans (cur r' (List.mem_cons_of_mem _ hr')))
      nd' (by simp at le; omega)
    unfold scanHeap
    simp only [show count < limit by simp at le; omega, if_true, visibleTo, run_bind_eq step, ne_eq,
      not_true_eq_false, if_false]
    refine ⟨by rw [rest.1]; simp [Nat.add_assoc, Nat.add_comm 1], rest.2.1, rest.2.2.1, ?_⟩
    rw [rest.2.2.2, heap, records_rewritten_of_update mem hu fresh]
    rfl

end Update

/-- A statement with conditions on its own table only whose filter builds runs the scan
over that filter. -/
theorem updateRecord_run_of_init (cmp : KeyOrder) (trx : Option Trx) {attributeName : String}
    {value : Value} {conditions : List Condition} {filter : ConditionFilter} {w : World}
    (ne : conditions ≠ [])
    (own : (conditions.any fun c => c.leftAttr.foreign w.table.tableMeta.name c.leftIsAttr ||
      c.rightAttr.foreign w.table.tableMeta.name c.rightIsAttr) = false)
    (init : compositeFilterInit w.table.tableMeta conditions = .ok filter) :
    (updateRecord cmp trx attributeName value conditions).run w =
      (scanRecord cmp trx (updaterReader attributeName value) (some filter) (-1) 0).run w := by
  rw [updateRecord, if_pos (List.length_pos.2 ne),
    run_bind_eq (show (MonadState.get : Exec World).run w = (w, w) from rfl)]
  simp only [own, init, Bool.false_eq_true, if_false]

/-- `UPDATE t SET attribute = value WHERE conditions` without a transaction, the update safe
and every call succeeding, when no index serves the filter: exactly the records that pass
the filter have the field rewritten, every index stays up to date, and the count returned
is the number of records rewritten. -/
theorem updateRecord_rewrites_matching {cmp : KeyOrder} {attributeName : String} {value : Value}
    {conditions : List Condition} {filter : ConditionFilter} {w : World} {i : Nat}
    {field : FieldMeta} (clean : w.faults = []) (indexed : Indexed w.table)
    (safe : UpdateSafe w.table attributeName value)
    (hi : w.table.tableMeta.findFieldIndexByName attributeName = some i)
    (hf : w.table.tableMeta.field i = some field) (ne : conditions ≠ [])
    (own : (conditions.any fun c => c.leftAttr.foreign w.table.tableMeta.name c.leftIsAttr ||
      c.rightAttr.foreign w.table.tableMeta.name c.rightIsAttr) = false)
    (init : compositeFilterInit w.table.tableMeta conditions = .ok filter)
    (noIndex : findIndexForScan cmp w.table (some filter) = none)
    (fits : w.table.recordHandler.records.length ≤ intMax) :
    ((updateRecord cmp none attributeName value conditions).run w).1 =
        (.success, (w.table.recordHandler.records.filter fun r =>
          passes cmp (some filter) r.data).length) ∧
      ((updateRecord cmp none attributeName value conditions).run w).2.table.recordHandler.records =
        w.table.recordHandler.records.map (fun r => if passes cmp (some filter) r.data then
          ⟨r.rid, updateField w.table.tableMeta r.data i field value⟩ else r) ∧
      IndexConsistent ((updateRecord cmp none attributeName value conditions).run w).2.table := by
  obtain ⟨cur, nd, room⟩ := filter_records_ready (fun r => passes cmp (some filter) r.data) fits
  obtain ⟨ok, settled, -, records⟩ :=
    scanHeap_updater hi hf intMax _ 0 0 w ⟨clean, indexed⟩ safe rfl cur nd room
  rw [updateRecord_run_of_init cmp none ne own init,
    scanRecord_run_of_heap cmp none _ clean noIndex] at *
  refine ⟨by simpa using ok, records.trans (List.map_congr_left fun x hx => ?_),
    settled.indexed.consistent⟩
  simp only [rewritten, mem_rids_filter_iff hx]

/-- The condition `a > 0` as the parser leaves it. -/
def aAboveZero : Condition :=
  ⟨true, ⟨none, "a"⟩, valueInitInteger 0 false, .greatThan, false, ⟨none, ""⟩,
    valueInitInteger 0 false⟩

/-- `UPDATE t SET a = 7 WHERE a > 0` on the two rows, which no index serves. -/
theorem updateRecord_aAboveZero :
    twoRowWorld.faults = [] ∧ Indexed twoRowWorld.table ∧
      UpdateSafe twoRowWorld.table "a" (valueInitInteger 7 false) ∧
      twoRowWorld.table.tableMeta.findFieldIndexByName "a" = some 1 ∧
      twoRowWorld.table.tableMeta.field 1 = some ⟨"a", .ints, 4, 4, false⟩ ∧
      compositeFilterInit twoRowWorld.table.tableMeta [aAboveZero] = .ok (.composite aGtZero.parts) ∧
      findIndexForScan intOrder twoRowWorld.table (some (.composite aGtZero.parts)) = none ∧
      ((updateRecord intOrder none "a" (valueInitInteger 7 false) [aAboveZero]).run twoRowWorld).1 =
        (.success, (twoRowWorld.table.recordHandler.records.filter fun r =>
          passes intOrder (some (.composite aGtZero.parts)) r.data).length) ∧
      ((updateRecord intOrder none "a" (valueInitInteger 7 false) [aAboveZero]).run
          twoRowWorld).2.table.recordHandler.records =
        twoRowWorld.table.recordHandler.records.map (fun r =>
          if passes intOrder (some (.composite aGtZero.parts)) r.data then
            ⟨r.rid, updateField twoRowWorld.table.tableMeta r.data 1 ⟨"a", .ints, 4, 4, false⟩
              (valueInitInteger 7 false)⟩ else r) ∧
      IndexConsistent
        ((updateRecord intOrder none "a" (valueInitInteger 7 false) [aAboveZero]).run twoRowWorld).2.table :=
  have start : twoRowWorld.faults = [] ∧ Indexed twoRowWorld.table ∧
      UpdateSafe twoRowWorld.table "a" (valueInitInteger 7 false) ∧
      twoRowWorld.table.tableMeta.findFieldIndexByName "a" = some 1 ∧
      twoRowWorld.table.tableMeta.field 1 = some ⟨"a", .ints, 4, 4, false⟩ ∧
      findIndexForScan intOrder twoRowWorld.table (some (.composite aGtZero.parts)) = none := by
    decide
  have init : compositeFilterInit twoRowWorld.table.tableMeta [aAboveZero] =
      .ok (.composite aGtZero.parts) := rfl
  ⟨start.1, start.2.1, start.2.2.1, start.2.2.2.1, start.2.2.2.2.1, init, start.2.2.2.2.2,
    updateRecord_rewrites_matching start.1 start.2.1 start.2.2.1 start.2.2.2.1 start.2.2.2.2.1
      (List.cons_ne_nil _ _) (by decide) init start.2.2.2.2.2 (by decide)⟩

end Miniob
