import Miniob.Storage.IndexConsistency

/-!
What the table's operations leave behind when one of their calls fails (§6: "the table
layer is responsible for compensating partial effects before returning a non-success").

Four runs where they do not:
* `insert_record` with a transaction whose index insert fails removes the record from the
  heap and the indexes but not its `INSERT` from the log (`insert_failure_keeps_log_entry`);
* the per-record `update_record` deletes the index entry before `is_legal` rejects the
  value, and returns with the entry gone (`failed_update_drops_index_entry`);
* `create_index` adds the new index to `indexes_` before it adds its meta and writes and
  renames the meta file, and returns on a failure of any of these with the index still
  there (`create_index_failure_keeps_index`);
* `commit_delete` ignores a failed index delete, removes the heap record and returns
  `SUCCESS`, leaving an index entry for a rid no record holds
  (`commit_delete_ignores_index_failure`).

The compensations call `delete_entry_of_indexes` with `error_on_not_exists`, which goes on
past an index that lacks the entry but returns the code of the last index alone
(`deleteEntryOfIndexes_run_true`): an entry missing from the last index, as after an index
insert that failed there, reads as a failed compensation
(`compensation_reports_missing_entry`).

Without a transaction, `insert_record` is all or nothing all the same: whichever of its
calls fails first, the heap insert or the index insert at any position, the compensation
gives back the heap and every index as they were (`insertRecord_failure_restores`).
`delete_record` without a transaction has no compensation: when its index delete fails at
some position, it returns with the record still in the heap and its entry gone from every
index before that position (`deleteRecord_failure_drops_entries`).
-/

namespace Miniob

/-- Transaction `7` inserts `a = 5` into `t` with its up-to-date index `ix`: the heap
insert and the log succeed, the index insert fails with `IOERR`, and every later call
succeeds. Heap and index are back as they were, and the log keeps the `INSERT` of
`(0, 1)`. -/
theorem insert_failure_keeps_log_entry :
    IndexConsistent indexedWorld.table ∧
      let w := { indexedWorld with faults := [.success, .success, .ioerr] }
      let r := (insertRecordValues (some ⟨7⟩) [valueInitInteger 5 false]).run w
      r.1 = .ioerr ∧ r.2.table.recordHandler.records = w.table.recordHandler.records ∧
        r.2.table.indexes = w.table.indexes ∧ r.2.log = [.insert ⟨0, 1⟩] := by
  decide

/-- `CREATE INDEX a ON t(a)`, then `UPDATE t SET a = 'x'`: the per-record update
removes the row's entry from the index, then `is_legal` rejects the string for the int
column, and the statement fails with the entry gone. -/
theorem failed_update_drops_index_entry :
    ((createIndex intOrder none "a" "a").run intTableWorld).1 = .success ∧
      let w := ((createIndex intOrder none "a" "a").run intTableWorld).2
      let r := (updateRecord intOrder none "a" (valueInitString ⟨[120], by decide⟩ false) []).run w
      w.table.indexes.map (·.entries) = [[([1, 0, 0, 0], ⟨0, 0⟩)]] ∧
        r.1.1 = .schemaFieldTypeMismatch ∧ r.2.table.recordHandler.records =
          w.table.recordHandler.records ∧ r.2.table.indexes.map (·.entries) = [[]] := by
  decide

/-- `commit_delete` of `(0, 0)` in `t` with its up-to-date index `ix`, the index delete
failing with `IOERR`: the heap record is removed all the same, the index keeps its entry,
and the call returns `SUCCESS`. -/
theorem commit_delete_ignores_index_failure :
    IndexConsistent indexedWorld.table ∧
      let r := (commitDelete ⟨0, 0⟩).run { indexedWorld with faults := [.success, .ioerr] }
      r.1 = .success ∧ r.2.table.recordHandler.records = [] ∧
        r.2.table.indexes.map (·.entries) = [[([1, 0, 0, 0], ⟨0, 0⟩)]] := by
  decide

/-- `CREATE INDEX ix ON t(a)` where every step goes through up to the rename of the `.tmp`
meta file, which fails: the call returns `IOERR` with `table_meta_` still listing no
index, while `indexes_` holds the new index `ix`. -/
theorem create_index_failure_keeps_index :
    intTableWorld.table.tableMeta.indexes = [] ∧ intTableWorld.table.indexes = [] ∧
      let r := (createIndex intOrder none "ix" "a").run { intTableWorld with
        faults := [.success, .success, .success, .success, .success, .success, .genericError] }
      r.1 = .ioerr ∧ r.2.table.tableMeta.indexes = [] ∧
        r.2.table.indexes.map (·.indexMeta.name) = ["ix"] := by
  decide

/-! ### Compensating index deletion -/

namespace Index

/-- The code `delete_entry(record, rid)` returns when the call goes through:
`RECORD_INVALID_KEY` when the index lacks the entry. -/
def deleteCode (i : Index) (data : Bytes) (rid : RID) : RC :=
  if (i.key data, rid) ∈ i.entries then .success else .recordInvalidKey

theorem eraseEntry_of_not_mem {i : Index} {data : Bytes} {rid : RID}
    (h : (i.key data, rid) ∉ i.entries) : i.eraseEntry data rid = i := by
  rw [eraseEntry, List.erase_of_not_mem h]

end Index

section Compensation

variable {data : Bytes} {rid : RID}

/-- One `delete_entry` that goes through: the entry leaves the index, and the code says
whether it was there. -/
theorem indexDeleteEntry_run_of_getElem? {w : World} (hnil : w.faults = []) {k : Nat}
    {i : Index} (hk : w.table.indexes[k]? = some i) :
    (indexDeleteEntry k data rid).run w =
      (i.deleteCode data rid, w.setIndexes (w.table.indexes.set k (i.eraseEntry data rid))) := by
  by_cases hmem : (i.key data, rid) ∈ i.entries
  · rw [indexDeleteEntry_run_of_mem hnil hk hmem, Index.deleteCode, if_pos hmem]
  · have same : w.table.indexes.set k i = w.table.indexes :=
      List.ext_getElem? fun j => by
        by_cases hj : k = j
        · subst hj; simp [List.getElem?_set, hk, (List.getElem?_eq_some_iff.1 hk).1]
        · simp [List.getElem?_set, hj]
    rw [indexDeleteEntry_run, if_pos (w.next_of_faults_nil hnil), w.pop_of_faults_nil hnil,
      Index.eraseEntry_of_not_mem hmem, same]
    simp [hk, Index.deleteEntry, Index.deleteCode, hmem]

/-- The loop of `delete_entry_of_indexes` with `error_on_not_exists` over positions `ks`,
each holding an index of `cur`, the others already erased: it erases the entry from every
index and carries the code of the last position it visits. -/
theorem deleteEntries_run_true {cur : List Index} :
    ∀ {ks : List Nat} {w : World} {rc : RC}, w.faults = [] → ks.Nodup →
      (∀ k ∈ ks, k < cur.length) →
      (∀ j, w.table.indexes[j]? = if j ∈ ks then cur[j]? else cur[j]?.map (·.eraseEntry data rid)) →
      (deleteEntries data rid true ks rc).run w =
        (ks.foldl (fun rc k => (cur[k]?.map (·.deleteCode data rid)).getD rc) rc,
          w.setIndexes (cur.map (·.eraseEntry data rid)))
  | [], w, _, _, _, _, hix => by
    have : w.table.indexes = cur.map (·.eraseEntry data rid) :=
      List.ext_getElem? fun j => by simpa using hix j
    rw [← this]
    rfl
  | k :: ks, w, rc, hnil, nd, hk, hix => by
    obtain ⟨i, hi⟩ : ∃ i, cur[k]? = some i :=
      ⟨_, List.getElem?_eq_getElem (hk k (List.mem_cons_self _ _))⟩
    have hcur : w.table.indexes[k]? = some i := by simp [hix k, hi]
    have hcode : ¬ (i.deleteCode data rid ≠ .success ∧
        (i.deleteCode data rid ≠ .recordInvalidKey ∨ !true)) := by
      unfold Index.deleteCode; split <;> simp
    rw [deleteEntries, run_bind_eq (indexDeleteEntry_run_of_getElem? hnil hcur), if_neg hcode,
      List.foldl_cons, hi]
    refine deleteEntries_run_true hnil (List.nodup_cons.1 nd).2
      (fun k' hk' => hk k' (List.mem_cons_of_mem _ hk')) fun j => ?_
    rw [World.setIndexes_indexes, List.getElem?_set]
    by_cases hj : k = j
    · subst hj
      simp [(List.nodup_cons.1 nd).1, hi, (List.getElem?_eq_some_iff.1 hcur).1]
    · simp [hj, hix j, Ne.symm hj]

/-- With every call succeeding, `delete_entry_of_indexes(record, rid, true)` takes the
entry out of every index that holds it, and returns the code of the last index alone:
`RECORD_INVALID_KEY` when the last index lacks the entry, whatever the others did. -/
theorem deleteEntryOfIndexes_run_true {w : World} (hnil : w.faults = []) :
    (deleteEntryOfIndexes data rid true).run w =
      ((w.table.indexes.getLast?.map (·.deleteCode data rid)).getD .success,
        w.setIndexes (w.table.indexes.map (·.eraseEntry data rid))) := by
  rw [deleteEntryOfIndexes, run_bind_eq (show (MonadState.get : Exec World).run w = (w, w) from rfl),
    deleteEntries_run_true hnil (List.nodup_range _) (fun k hk => List.mem_range.1 hk) fun j => ?_]
  · congr 1
    rw [List.getLast?_eq_getElem?]
    rcases h : w.table.indexes.length with _ | n
    · rw [List.getElem?_eq_none (by omega)]
      rfl
    · obtain ⟨i, hi⟩ : ∃ i, w.table.indexes[n]? = some i :=
        ⟨_, List.getElem?_eq_getElem (by omega)⟩
      rw [List.range_succ, List.foldl_append, List.foldl_cons, List.foldl_nil,
        Nat.add_sub_cancel, hi]
      rfl
  · by_cases hj : j < w.table.indexes.length
    · simp [hj]
    · simp [hj, List.getElem?_eq_none (Nat.le_of_not_lt hj)]

end Compensation

/-- The compensation `insert_record` runs after the index insert of `a = 5` at `(0, 1)`
failed: `delete_entry_of_indexes(record, (0, 1), true)` on `t` with its one index `ix`,
which lacks the entry. Every call goes through and no index fails with another code, yet
the call returns `RECORD_INVALID_KEY`, the code `insert_record` treats as a failed
compensation. -/
theorem compensation_reports_missing_entry :
    indexedWorld.faults = [] ∧ indexedWorld.table.indexes.length = 1 ∧
      ((deleteEntryOfIndexes [7, 0, 0, 0, 5, 0, 0, 0, 0, 0] ⟨0, 1⟩ true).run indexedWorld).1 =
        .recordInvalidKey := by
  refine ⟨rfl, rfl, ?_⟩
  rw [deleteEntryOfIndexes_run_true rfl]
  decide

/-! ### A failed `insert_record` without a transaction -/

section FailedInsert

variable {data : Bytes} {rid : RID} {c : RC}

/-- The loop of `insert_entry_of_indexes` when its first `m` calls succeed and the next one
fails with `c`: the first `m` positions get the entry, and `c` is returned. -/
theorem insertEntries_run_of_fault (hc : c ≠ .success) :
    ∀ (m : Nat) (ks : List Nat) {w : World}, m < ks.length →
      w.faults = List.replicate m .success ++ [c] →
      (insertEntries data rid ks).run w = (c, { w with faults := [] }.setIndexes
        ((ks.take m).foldl (fun is k => is.modify (·.insertEntry data rid) k) w.table.indexes))
  | _, [], _, hm, _ => absurd hm (Nat.not_lt_zero _)
  | 0, k :: ks, w, _, faults => by
    have failed : (indexInsertEntry k data rid).run w = (c, { w with faults := [] }) := by
      rw [indexInsertEntry_run, if_neg (by simpa [World.next, faults] using hc)]
      simp [World.next, World.pop, faults]
    rw [insertEntries, run_bind_eq failed, if_pos hc]
    rfl
  | m + 1, k :: ks, w, hm, faults => by
    rw [insertEntries, run_bind_eq ((indexInsertEntry_run k data rid w).trans
      (if_pos (by simp [World.next, faults, List.replicate_succ]))), if_neg (not_not.2 rfl),
      insertEntries_run_of_fault hc m ks (by simpa using hm) (by simp [faults])]
    rfl

/-- Erasing an entry no index held before a partial insert loop gives every index back. -/
theorem map_eraseEntry_foldl_insertEntry {indexes : List Index}
    (absent : ∀ i ∈ indexes, (i.key data, rid) ∉ i.entries) {ks : List Nat} (nd : ks.Nodup) :
    (ks.foldl (fun is k => is.modify (·.insertEntry data rid) k) indexes).map
      (·.eraseEntry data rid) = indexes := by
  refine List.ext_getElem? fun j => ?_
  rw [List.getElem?_map, getElem?_foldl_modify _ j _ nd]
  split
  · cases indexes[j]? <;> simp [Index.eraseEntry_insertEntry]
  · cases h : indexes[j]? with
    | none => rfl
    | some i => exact congrArg some (Index.eraseEntry_of_not_mem (absent i (List.mem_iff_getElem?.2 ⟨j, h⟩)))

/-- No up-to-date index holds an entry for the first free slot. -/
theorem IndexConsistent.not_mem_freeSlot {t : Table} (hI : IndexConsistent t) :
    ∀ i ∈ t.indexes, (i.key data, t.recordHandler.freeSlot) ∉ i.entries := fun i hi mem => by
  obtain ⟨r, hr, e⟩ := List.mem_map.1 ((hI i hi).mem_iff.1 mem)
  exact t.recordHandler.freeSlot_not_mem (RecordFileHandler.mem_rids.2 ⟨r, hr, congrArg Prod.snd e⟩)

/-- `insert_record(nullptr, record)` is all or nothing: from a table whose indexes are up to
date, when the heap insert or the index insert at any position is the first call to fail,
with any code `c`, and the compensation's calls succeed, it returns `c` and leaves the heap,
every index and the log as they were. -/
theorem insertRecord_failure_restores {w : World} (hI : IndexConsistent w.table) {m : Nat}
    (hm : m ≤ w.table.indexes.length) (hc : c ≠ .success)
    (faults : w.faults = List.replicate m .success ++ [c]) :
    ((insertRecord none data).run w).1.1 = c ∧
      ((insertRecord none data).run w).2 = ⟨w.table, w.log, []⟩ := by
  rw [insertRecord, run_bind_eq (show (MonadState.get : Exec World).run w = (w, w) from rfl)]
  cases m with
  | zero =>
    have heap : (rhInsertRecord (stampTrx none data)
        (w.table.tableMeta.recordSize + w.table.tableMeta.fieldNum)).run w =
        ((c, ⟨0, 0⟩), { w with faults := [] }) := by
      rw [rhInsertRecord_run, if_neg (show w.next ≠ .success by simpa [World.next, faults] using hc)]
      simp [World.next, World.pop, faults]
    rw [run_bind_eq heap]
    simp [hc]
  | succ k =>
    set ins := w.table.recordHandler.insert (readBytes (stampTrx none data)
      (w.table.tableMeta.recordSize + w.table.tableMeta.fieldNum))
    have heap : (rhInsertRecord (stampTrx none data)
        (w.table.tableMeta.recordSize + w.table.tableMeta.fieldNum)).run w =
        ((.success, ins.1), w.pop.setRecordHandler ins.2) := by
      rw [rhInsertRecord_run, if_pos (by simp [World.next, faults, List.replicate_succ])]
    have entered : (insertEntryOfIndexes (stampTrx none data) ins.1).run
        (w.pop.setRecordHandler ins.2) =
        (c, { w.pop.setRecordHandler ins.2 with faults := [] }.setIndexes
          (((List.range w.table.indexes.length).take k).foldl
            (fun is j => is.modify (·.insertEntry (stampTrx none data) ins.1) j) w.table.indexes)) :=
      insertEntries_run_of_fault hc k (List.range w.table.indexes.length) (by simpa using hm)
        (by simp [faults, List.replicate_succ])
    rw [run_bind_eq heap]
    simp only [ne_eq, not_true_eq_false, if_false]
    rw [run_bind_eq (rfl : (logInsert none ins.1).run (w.pop.setRecordHandler ins.2) = (.success, _))]
    simp only [ne_eq, not_true_eq_false, if_false]
    rw [run_bind_eq entered]
    simp only [ne_eq, hc, not_false_eq_true, if_true]
    rw [run_bind_eq (deleteEntryOfIndexes_run_true rfl),
      run_bind_eq (rhDeleteRecord_run_of_delete rfl (w.table.recordHandler.delete_insert_self _))]
    refine ⟨rfl, ?_⟩
    simp only [World.setIndexes_indexes, @map_eraseEntry_foldl_insertEntry (stampTrx none data) ins.1 _
      hI.not_mem_freeSlot _ ((List.nodup_range _).sublist (List.take_sublist _ _))]
    rfl

end FailedInsert

/-- `insert_record(nullptr, a = 5)` on `t` with its index `ix`: the heap insert succeeds and
the index insert fails with `IOERR`. -/
theorem insertRecord_failure_restores_ioerr :
    IndexConsistent indexedWorld.table ∧ 1 ≤ indexedWorld.table.indexes.length ∧
      RC.ioerr ≠ .success ∧
      ((insertRecord none [0, 0, 0, 0, 5, 0, 0, 0, 0, 0]).run
        { indexedWorld with faults := [.success, .ioerr] }).1.1 = .ioerr ∧
      ((insertRecord none [0, 0, 0, 0, 5, 0, 0, 0, 0, 0]).run
        { indexedWorld with faults := [.success, .ioerr] }).2 =
          ⟨indexedWorld.table, indexedWorld.log, []⟩ :=
  ⟨by decide, by decide, by decide, @insertRecord_failure_restores [0, 0, 0, 0, 5, 0, 0, 0, 0, 0]
    .ioerr { indexedWorld with faults := [.success, .ioerr] } (by decide) 1 (by decide) (by decide) rfl⟩


/-! ### A failed `delete_record` without a transaction -/

section FailedDelete

variable {data : Bytes} {rid : RID} {c : RC}

/-- The loop of `delete_entry_of_indexes` without `error_on_not_exists` over positions `ks`,
each holding an index of `cur` that has the entry, the others already erased, when its
first `m` calls succeed and the next one fails with `c`: it stops there and returns `c`, the
first `m` positions erased. -/
theorem deleteEntries_run_of_fault {cur : List Index} (hmem : ∀ i ∈ cur, (i.key data, rid) ∈ i.entries)
    (hc : c ≠ .success) :
    ∀ (m : Nat) {ks : List Nat} {w : World} {rc : RC}, m < ks.length →
      w.faults = List.replicate m .success ++ [c] → ks.Nodup → (∀ k ∈ ks, k < cur.length) →
      (∀ j, w.table.indexes[j]? = if j ∈ ks then cur[j]? else cur[j]?.map (·.eraseEntry data rid)) →
      ∃ indexes, (deleteEntries data rid false ks rc).run w =
          (c, ⟨{ w.table with indexes := indexes }, w.log, []⟩) ∧
        ∀ j, indexes[j]? = if j ∈ ks.drop m then cur[j]? else cur[j]?.map (·.eraseEntry data rid)
  | _, [], _, _, hm, _, _, _, _ => absurd hm (Nat.not_lt_zero _)
  | 0, k :: ks, w, _, _, faults, _, _, hix => by
    have failed : (indexDeleteEntry k data rid).run w = (c, ⟨w.table, w.log, []⟩) := by
      rw [indexDeleteEntry_run, if_neg (by simpa [World.next, faults] using hc)]
      simp [World.next, World.pop, faults]
    refine ⟨w.table.indexes, ?_, hix⟩
    rw [deleteEntries, run_bind_eq failed, if_pos ⟨hc, .inr rfl⟩]
    rfl
  | m + 1, k :: ks, w, _, hm, faults, nd, hk, hix => by
    obtain ⟨i, hi⟩ : ∃ i, cur[k]? = some i :=
      ⟨_, List.getElem?_eq_getElem (hk k (List.mem_cons_self _ _))⟩
    have hcur : w.table.indexes[k]? = some i := by simp [hix k, hi]
    have erased : (indexDeleteEntry k data rid).run w = (.success,
        w.pop.setIndexes (w.table.indexes.set k (i.eraseEntry data rid))) := by
      rw [indexDeleteEntry_run, if_pos (by simp [World.next, faults, List.replicate_succ]), hcur]
      simp [Index.deleteEntry_of_mem (hmem i (List.getElem?_mem hi))]
    rw [deleteEntries, run_bind_eq erased]
    simp only [ne_eq, not_true_eq_false, false_and, if_false]
    refine deleteEntries_run_of_fault hmem hc m (by simpa using hm) (by simp [faults, List.replicate_succ])
      (List.nodup_cons.1 nd).2 (fun k' hk' => hk k' (List.mem_cons_of_mem _ hk')) fun j => ?_
    rw [World.setIndexes_indexes, List.getElem?_set]
    by_cases hj : k = j
    · subst hj
      simp [(List.nodup_cons.1 nd).1, hi, (List.getElem?_eq_some_iff.1 hcur).1]
    · simp [hj, hix j, Ne.symm hj]

/-- `delete_record(nullptr, record)` is not all or nothing: from a table whose indexes are
up to date, when the index delete at position `k` is the first call to fail, with any code
`c`, it returns `c` and leaves the record in the heap and the log as they were, but the
record's entry is gone from the `k` indexes before, so that for `k > 0` the indexes no longer
hold the heap's entries. -/
theorem deleteRecord_failure_drops_entries {w : World} (hI : IndexConsistent w.table) {r : Record}
    (hr : r ∈ w.table.recordHandler.records) {k : Nat} (hk : k < w.table.indexes.length)
    (hc : c ≠ .success) (faults : w.faults = List.replicate k .success ++ [c]) :
    ((deleteRecord none r).run w).1 = c ∧
      ((deleteRecord none r).run w).2.table.recordHandler = w.table.recordHandler ∧
      ((deleteRecord none r).run w).2.log = w.log ∧
      (∀ j, ((deleteRecord none r).run w).2.table.indexes[j]? =
        if j < k then w.table.indexes[j]?.map (·.eraseEntry r.data r.rid) else w.table.indexes[j]?) ∧
      (0 < k → ¬IndexConsistent ((deleteRecord none r).run w).2.table) := by
  have hmem : ∀ i ∈ w.table.indexes, (i.key r.data, r.rid) ∈ i.entries :=
    fun i hi => (hI i hi).mem_iff.2 (List.mem_map.2 ⟨r, hr, rfl⟩)
  obtain ⟨indexes, loop, pos⟩ := deleteEntries_run_of_fault hmem hc k (by simpa using hk) faults
    (List.nodup_range _) (fun j hj => List.mem_range.1 hj) fun j => by
      by_cases hj : j < w.table.indexes.length
      · simp [hj]
      · simp [hj, List.getElem?_eq_none (Nat.le_of_not_lt hj)]
  have whole : (deleteRecord none r).run w = (c, ⟨{ w.table with indexes := indexes }, w.log, []⟩) := by
    have entries : (deleteEntryOfIndexes r.data r.rid false).run w =
        (c, ⟨{ w.table with indexes := indexes }, w.log, []⟩) := loop
    rw [deleteRecord, run_bind_eq entries, if_pos hc]
    rfl
  have positions : ∀ j, indexes[j]? =
      if j < k then w.table.indexes[j]?.map (·.eraseEntry r.data r.rid) else w.table.indexes[j]? := by
    intro j
    rw [pos j]
    by_cases hj : j < k
    · refine (if_neg fun h => ?_).trans (if_pos hj).symm
      obtain ⟨q, hq, e⟩ := List.mem_drop_iff_getElem.1 h
      simp only [List.getElem_range] at e
      omega
    · by_cases hn : j < w.table.indexes.length
      · rw [if_pos (List.mem_drop_iff_getElem.2 ⟨j - k, by simp; omega, by simp; omega⟩), if_neg hj]
      · simp [hj, List.getElem?_eq_none (Nat.le_of_not_lt hn)]
  rw [whole]
  refine ⟨rfl, rfl, rfl, positions, fun first consistent => ?_⟩
  obtain ⟨i, hi⟩ : ∃ i, w.table.indexes[0]? = some i := ⟨_, List.getElem?_eq_getElem (by omega)⟩
  have erased : indexes[0]? = some (i.eraseEntry r.data r.rid) := by rw [positions, if_pos first, hi]; rfl
  have mem := List.getElem?_mem hi
  have lengths := (consistent _ (List.getElem?_mem erased)).length_eq
  rw [show (i.eraseEntry r.data r.rid).entries = i.entries.erase (i.key r.data, r.rid) from rfl,
    List.length_erase_of_mem (hmem i mem), (hI i mem).length_eq] at lengths
  have held : 0 < (i.expected w.table.recordHandler).length :=
    List.length_pos_of_mem (List.mem_map.2 ⟨r, hr, rfl⟩)
  simp only [Index.expected, List.length_map] at held lengths
  omega
end FailedDelete

/-- `t2(a int, b int)`. -/
def twoFieldTable : TableMeta where
  name := "t2"
  sysFieldNum := 1
  fields := [⟨"__trx", .ints, 0, 4, false⟩, ⟨"a", .ints, 4, 4, false⟩, ⟨"b", .ints, 8, 4, false⟩]
  indexes := []
  recordSize := 12
  contiguous := ⟨rfl, rfl, rfl, trivial⟩
  has_user_field := by decide
  has_trx_field := by decide
  payload_le := by decide

/-- `t2` holding `(1, 2)` at `(0, 0)`, with the index `ia` on `a` and then `ib` on `b`. -/
def twoIndexWorld : World :=
  ((createIndex intOrder none "ib" "b").run ((createIndex intOrder none "ia" "a").run
    ⟨⟨twoFieldTable, ⟨4, [⟨⟨0, 0⟩, [0, 0, 0, 0, 1, 0, 0, 0, 2, 0, 0, 0, 0, 0, 0]⟩],
      by decide, by decide⟩, []⟩, [], []⟩).2).2

/-- `delete_record(nullptr, (1, 2))` on `t2`: `ia` drops the entry, then the delete on `ib`
fails with `IOERR`. -/
theorem deleteRecord_failure_drops_entries_ioerr :
    IndexConsistent twoIndexWorld.table ∧
      (⟨⟨0, 0⟩, [0, 0, 0, 0, 1, 0, 0, 0, 2, 0, 0, 0, 0, 0, 0]⟩ : Record) ∈
        twoIndexWorld.table.recordHandler.records ∧
      1 < twoIndexWorld.table.indexes.length ∧ RC.ioerr ≠ .success ∧
      ((deleteRecord none ⟨⟨0, 0⟩, [0, 0, 0, 0, 1, 0, 0, 0, 2, 0, 0, 0, 0, 0, 0]⟩).run
        { twoIndexWorld with faults := [.success, .ioerr] }).1 = .ioerr ∧
      ¬IndexConsistent ((deleteRecord none ⟨⟨0, 0⟩, [0, 0, 0, 0, 1, 0, 0, 0, 2, 0, 0, 0, 0, 0, 0]⟩).run
        { twoIndexWorld with faults := [.success, .ioerr] }).2.table :=
  have hI : IndexConsistent twoIndexWorld.table := by decide
  have hr : (⟨⟨0, 0⟩, [0, 0, 0, 0, 1, 0, 0, 0, 2, 0, 0, 0, 0, 0, 0]⟩ : Record) ∈
      twoIndexWorld.table.recordHandler.records := by decide
  have dropped := @deleteRecord_failure_drops_entries .ioerr
    { twoIndexWorld with faults := [.success, .ioerr] } hI _ hr 1 (by decide) (by decide) rfl
  ⟨hI, hr, by decide, by decide, dropped.1, dropped.2.2.2.2 (by decide)⟩

end Miniob
