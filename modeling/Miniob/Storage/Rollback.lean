import Miniob.Storage.FaultFree

/-!
What `Trx::rollback` undoes (§4.6): the log is run in reverse through the table's
`rollback_insert` and `rollback_delete`, with every call of those callbacks succeeding.

`Unwinds ops t t'` says that rolling back `ops` takes the table `t'` back to `t`. It holds
of one `INSERT` entry and the insert it logged (`unwinds_insert`), of one `DELETE` entry
and the in-place mark it logged (`unwinds_delete`), and of a concatenation of logs
(`Unwinds.append`). A successful `insert_record(trx, values)` and a `delete_record(trx,
filter)` with any outcome each extend the log by entries that unwind what they did
(`insertRecordValues_unwinds`, `deleteRecords_unwinds`); the second goes through the
generic scan lemma `scanRecord_rel`. `trxRollback_restores` puts them together.

The per-record `update_record` logs nothing (its logging branch is `if (false)`), so an
update made inside a transaction survives the rollback: `update_survives_rollback`.
-/

namespace Miniob

/-- §5's record size invariant: every record holds `record_size + field_num` bytes. -/
def RecordSized (t : Table) : Prop :=
  ∀ r ∈ t.recordHandler.records, r.data.length = t.tableMeta.recordSize + t.tableMeta.fieldNum

instance (t : Table) : Decidable (RecordSized t) :=
  inferInstanceAs (Decidable (∀ r ∈ t.recordHandler.records, _))

/-- A record of full size holds every field and the null bitmap's start. -/
theorem RecordSized.nullFieldIndex_le {t : Table} (sized : RecordSized t) {r : Record}
    (hr : r ∈ t.recordHandler.records) : t.tableMeta.nullFieldIndex ≤ r.data.length := by
  have := t.tableMeta.payload_le
  rw [sized r hr]
  unfold TableMeta.nullFieldIndex
  omega

/-- Rolling back the entries `ops`, every call succeeding, takes the table `t'` back to
`t`, whatever log is in scope. -/
def Unwinds (ops : List Operation) (t t' : Table) : Prop :=
  ∀ log, (runOperations rollbackOperation ops.reverse).run ⟨t', log, []⟩ = (.success, ⟨t, log, []⟩)

theorem Unwinds.nil (t : Table) : Unwinds [] t t := fun _ => rfl

theorem Unwinds.append {ops ops' : List Operation} {t t' t'' : Table} (h₁ : Unwinds ops t t')
    (h₂ : Unwinds ops' t' t'') : Unwinds (ops ++ ops') t t'' := fun log => by
  rw [List.reverse_append, runOperations_append_of_success _ (h₂ log)]
  exact h₁ log

/-- Running one callback and then nothing. -/
theorem runOperations_singleton {f : Operation → Exec RC} {op : Operation} {w w' : World}
    (h : (f op).run w = (.success, w')) : (runOperations f [op]).run w = (.success, w') := by
  simp only [runOperations, StateT.run_bind, h, Id.bind_eq, ne_eq, not_true_eq_false, if_false]
  rfl

/-! ### One entry at a time -/

section Entries

variable {t : Table}

/-- Rolling back an `INSERT` takes the record out of every index it was put into and out
of the heap. The stored copy has the key the indexes were given as long as the buffer was
no longer than what the record manager read. -/
theorem unwinds_insert {data : Bytes} {n : Nat} (hlen : data.length ≤ n) :
    Unwinds [.insert t.recordHandler.freeSlot] t { t with
      recordHandler := (t.recordHandler.insert (readBytes data n)).2
      indexes := t.indexes.map (·.insertEntry data t.recordHandler.freeSlot) } := fun log => by
  have hkey (i : Index) : i.key (readBytes data n) = i.key data := Index.key_readBytes hlen
  have held : ∀ i ∈ t.indexes.map (·.insertEntry data t.recordHandler.freeSlot),
      (i.key (readBytes data n), t.recordHandler.freeSlot) ∈ i.entries := by
    simp only [List.mem_map]
    rintro _ ⟨i, -, rfl⟩
    exact Index.mem_insertEntry (hkey i)
  apply runOperations_singleton
  refine (@rollbackInsert_run_of_mem _ (by rfl) ⟨t.recordHandler.freeSlot, readBytes data n⟩ _
    (RecordFileHandler.get_insert_self _) held (RecordFileHandler.delete_insert_self _)).trans ?_
  simp [List.map_map, Function.comp_def, Index.eraseEntry_insertEntry (hkey _), World.setIndexes,
    World.setRecordHandler]

/-- Rolling back a `DELETE` clears the deleted flag the delete set, which gives back the
record as it was. -/
theorem unwinds_delete {r : Record} {h' : RecordFileHandler} (cur : t.recordHandler.get r.rid = some r)
    (hlen : 4 ≤ r.data.length) (live : recordDeleted r.data = false)
    (hu : t.recordHandler.update ⟨r.rid, markDeleted r.data⟩ = some h') :
    Unwinds [.delete r.rid] t { t with recordHandler := h' } := fun log => by
  have restored : h'.update ⟨r.rid, unmarkDeleted (markDeleted r.data)⟩ = some t.recordHandler := by
    rw [unmarkDeleted_markDeleted hlen live]
    exact RecordFileHandler.update_restore hu cur
  apply runOperations_singleton
  exact @rollbackDelete_run_of_get _ (by rfl) ⟨r.rid, markDeleted r.data⟩ _
    (RecordFileHandler.get_update_self hu) restored

end Entries

/-! ### One statement at a time -/

/-- What a transaction's statement does as far as rollback is concerned: from a table that
keeps the record size invariant, it keeps it and the meta, and extends the log by entries
that unwind what it did. -/
def Undoable (w w' : World) : Prop :=
  RecordSized w.table →
    RecordSized w'.table ∧ w'.table.tableMeta = w.table.tableMeta ∧
      ∃ ops, w'.log = w.log ++ ops ∧ Unwinds ops w.table w'.table

theorem Undoable.refl (w : World) : Undoable w w :=
  fun sized => ⟨sized, rfl, [], by simp, Unwinds.nil _⟩

/-- `Undoable` as a relation between worlds: taking an outcome changes nothing rollback
sees, and two statements in a row unwind by the concatenation of their entries. -/
def undoable : WorldRel where
  rel := Undoable
  refl := Undoable.refl
  trans {a b c} h₁ h₂ sized := by
    obtain ⟨sized₁, meta₁, ops₁, log₁, un₁⟩ := h₁ sized
    obtain ⟨sized₂, meta₂, ops₂, log₂, un₂⟩ := h₂ sized₁
    exact ⟨sized₂, meta₂.trans meta₁, ops₁ ++ ops₂, by rw [log₂, log₁, List.append_assoc],
      un₁.append un₂⟩
  pop := Undoable.refl

/-- A successful `insert_record(trx, values)` logs an `INSERT` that unwinds it. -/
theorem insertRecordValues_unwinds {t : Trx} {values : List Value} {w w' : World}
    (h : (insertRecordValues (some t) values).run w = (.success, w')) : Undoable w w' := by
  intro sized
  obtain ⟨data, rid, made, inserted⟩ := insertRecordValues_success h
  obtain ⟨rfl, table, log⟩ := insertRecord_success inserted
  obtain ⟨arity, rfl⟩ := makeRecord_eq_ok made
  have hlen : (stampTrx (some t) (writeValues w.table.tableMeta.nullFieldIndex 0
      w.table.tableMeta.userFields values (List.replicate (w.table.tableMeta.recordSize +
        values.length) 0))).length ≤ w.table.tableMeta.recordSize + w.table.tableMeta.fieldNum := by
    simp only [stampTrx, initTrxInfo, length_setTrxWord, length_writeValues, List.length_replicate]
    omega
  refine ⟨fun r hr => ?_, by rw [table], _, log, table ▸ unwinds_insert hlen⟩
  rw [table] at hr ⊢
  rcases RecordFileHandler.mem_insert_records hr with old | rfl
  · exact sized r old
  · exact length_readBytes _ _

/-- The per-record delete of a transaction marks the record deleted in place and logs a
`DELETE` that unwinds it. -/
theorem deleterReader_spec (t : Trx) :
    ReaderSpec (some t) (deleterReader (some t)) undoable := by
  intro r count w cur visible
  have run : (deleterReader (some t) r count).run w =
      ((((trxDeleteRecord r).run w).1,
        if ((trxDeleteRecord r).run w).1 = .success then count + 1 else count),
        ((trxDeleteRecord r).run w).2) := rfl
  rw [run, trxDeleteRecord_run]
  dsimp only
  have used : r.rid ∈ w.table.recordHandler.rids :=
    RecordFileHandler.mem_rids.2 ⟨r, (RecordFileHandler.get_eq_some_iff.1 cur).1, rfl⟩
  split
  · split
    · rename_i h' hu
      refine ⟨fun sized => ⟨fun x hx => ?_, rfl, _, rfl, ?_⟩, fun rid ne => ?_⟩
      · rcases RecordFileHandler.mem_of_update hu hx with old | rfl
        · exact sized x old
        · rw [length_markDeleted]
          exact sized r (RecordFileHandler.get_eq_some_iff.1 cur).1
      · have hlen : 4 ≤ r.data.length := by
          rw [sized r (RecordFileHandler.get_eq_some_iff.1 cur).1]
          exact w.table.tableMeta.four_le_recordSize
        exact unwinds_delete cur hlen (recordDeleted_of_isVisible visible) hu
      · exact RecordFileHandler.get_update_of_ne hu ne
    · exact ⟨undoable.pop w, fun _ _ => rfl⟩
  · exact ⟨undoable.pop w, fun _ _ => rfl⟩

/-- A `delete_record(trx, filter)` statement, whatever it returns, has logged one `DELETE`
per record it marked, and they unwind it. -/
theorem deleteRecords_unwinds (cmp : KeyOrder) (t : Trx) (filter : Option ConditionFilter)
    (w : World) : Undoable w ((deleteRecords cmp (some t) filter).run w).2 :=
  scanRecord_preserves cmp (some t) (deleterReader (some t)) (deleterReader_spec t) filter (-1) 0 w

/-! ### A whole transaction -/

/-- A transaction's statements in the order the session ran them: `INSERT`s of one row
that succeeded, and `DELETE`s with whatever outcome. -/
inductive TrxRun (cmp : KeyOrder) (t : Trx) : World → World → Prop
  | done (w : World) : TrxRun cmp t w w
  | insert {w w₁ w₂ : World} (values : List Value) :
      (insertRecordValues (some t) values).run w = (.success, w₁) → TrxRun cmp t w₁ w₂ →
        TrxRun cmp t w w₂
  | delete {w w₂ : World} (filter : Option ConditionFilter) :
      TrxRun cmp t ((deleteRecords cmp (some t) filter).run w).2 w₂ → TrxRun cmp t w w₂

theorem TrxRun.unwinds {cmp : KeyOrder} {t : Trx} {w w' : World} (run : TrxRun cmp t w w') :
    Undoable w w' := by
  induction run with
  | done w => exact Undoable.refl w
  | insert values h _ ih => exact undoable.trans (insertRecordValues_unwinds h) ih
  | delete filter _ ih => exact undoable.trans (deleteRecords_unwinds cmp _ filter _) ih

/-- Rollback restores the table the transaction started from: after any run of `INSERT`
and `DELETE` statements of `t` from a table keeping the record size invariant, with an
empty log, `Trx::rollback` with every call succeeding returns `SUCCESS` and leaves the heap,
every index and the meta exactly as they were, and the log empty. -/
theorem trxRollback_restores {cmp : KeyOrder} {t : Trx} {w w' : World}
    (sized : RecordSized w.table) (fresh : w.log = []) (run : TrxRun cmp t w w') :
    trxRollback.run { w' with faults := [] } = (.success, ⟨w.table, [], []⟩) := by
  obtain ⟨-, -, ops, log, unwinds⟩ := run.unwinds sized
  rw [fresh, List.nil_append] at log
  have rolled := unwinds w'.log
  rw [← log] at rolled
  simp only [trxRollback, StateT.run_bind, StateT.run_get, Id.pure_eq, Id.bind_eq]
  rw [show ({ w' with faults := [] } : World) = ⟨w'.table, w'.log, []⟩ from rfl, log, ← log,
    rolled]
  rfl

/-! ### A table to run statements on -/

/-- A table `t(a INT)`: the trx field, then `a`. -/
def intTable : TableMeta where
  name := "t"
  sysFieldNum := 1
  fields := [⟨"__trx", .ints, 0, 4, false⟩, ⟨"a", .ints, 4, 4, false⟩]
  indexes := []
  recordSize := 8
  contiguous := ⟨rfl, rfl, trivial⟩
  has_user_field := by decide
  has_trx_field := by decide
  payload_le := by decide

/-- `t` holding the committed row `a = 1` at `(0, 0)`, with no index and no log. -/
def intTableWorld : World :=
  ⟨⟨intTable, ⟨4, [⟨⟨0, 0⟩, [0, 0, 0, 0, 1, 0, 0, 0, 0, 0]⟩], by decide, by decide⟩, []⟩, [], []⟩

/-- Transaction `7` inserts `a = 5`, then deletes every row it sees; rolling back gives
the table it started from. -/
theorem rollback_undoes_insert_and_delete :
    RecordSized intTableWorld.table ∧ intTableWorld.log = [] ∧
      trxRollback.run { ((deleteRecords intOrder (some ⟨7⟩) none).run
        ((insertRecordValues (some ⟨7⟩) [valueInitInteger 5 false]).run intTableWorld).2).2 with
          faults := [] } = (.success, ⟨intTableWorld.table, [], []⟩) :=
  ⟨by decide, rfl, @trxRollback_restores intOrder ⟨7⟩ _ _ (by decide) rfl
    (.insert [valueInitInteger 5 false] rfl (.delete none (.done _)))⟩

/-- Inside transaction `7`, `UPDATE t SET a = 2` succeeds and so does the rollback after
it, yet the heap keeps `a = 2`: the update was never logged. -/
theorem update_survives_rollback :
    let updated := (updateRecord intOrder (some ⟨7⟩) "a" (valueInitInteger 2 false) []).run
      intTableWorld
    updated.1 = (.success, 1) ∧ (trxRollback.run updated.2).1 = .success ∧
      (trxRollback.run updated.2).2.table.recordHandler.records =
        [⟨⟨0, 0⟩, [0, 0, 0, 0, 2, 0, 0, 0, 0, 0]⟩] := by
  decide

end Miniob
