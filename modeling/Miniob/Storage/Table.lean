import Miniob.Storage.Trx

/-!
`Table`'s record operations (`storage/common/table.cpp`), call for call.

Each function below is the C++ method of the same name: the same calls to the record
manager, the indexes and the transaction, in the same order, with the same early returns
and the same compensations. Logging (`LOG_ERROR`, `LOG_PANIC`) has no effect and is left
out. A record passed by pointer is a `Record` value; the buffer the method writes into
is returned through the record manager, the only place the C++ code puts it.

The per-record `update_record` keeps its `if (false)` transactional branch out: it never
runs. It finds the index to maintain with `find_index(attribute_name)`, which compares
*index* names; `findIndex` does the same.
-/

namespace Miniob

/-- `trx->init_trx_info(this, *record)` when there is a transaction. -/
def stampTrx : Option Trx → Bytes → Bytes
  | some t, data => initTrxInfo t data
  | none, data => data

/-- `trx->insert_record(this, record)` when there is a transaction. -/
def logInsert : Option Trx → RID → Exec RC
  | some _, rid => trxInsertRecord rid
  | none, _ => pure .success

/-- The loop of `insert_entry_of_indexes` over the indexes numbered `ks`. -/
def insertEntries (data : Bytes) (rid : RID) : List Nat → Exec RC
  | [] => pure .success
  | k :: ks => do
      let rc ← indexInsertEntry k data rid
      if rc ≠ .success then pure rc else insertEntries data rid ks

/-- `Table::insert_entry_of_indexes(record, rid)`: each index in turn, up to the first
failure. -/
def insertEntryOfIndexes (data : Bytes) (rid : RID) : Exec RC := do
  insertEntries data rid (List.range (← get).table.indexes.length)

/-- The loop of `delete_entry_of_indexes`, carrying the last `rc`. -/
def deleteEntries (data : Bytes) (rid : RID) (errorOnNotExists : Bool) :
    List Nat → RC → Exec RC
  | [], rc => pure rc
  | k :: ks, _ => do
      let rc ← indexDeleteEntry k data rid
      if rc ≠ .success ∧ (rc ≠ .recordInvalidKey ∨ !errorOnNotExists) then pure rc
      else deleteEntries data rid errorOnNotExists ks rc

/-- `Table::delete_entry_of_indexes(record, rid, error_on_not_exists)`: each index in
turn; a failure stops the loop unless it is `RECORD_INVALID_KEY` and
`error_on_not_exists` holds. The last `rc` is returned. -/
def deleteEntryOfIndexes (data : Bytes) (rid : RID) (errorOnNotExists : Bool) : Exec RC := do
  deleteEntries data rid errorOnNotExists (List.range (← get).table.indexes.length) .success

/-- `Table::find_index(index_name)`: the position of the first index with that name. -/
def findIndex (t : Table) (indexName : String) : Option Nat :=
  t.indexes.findIdx? (·.indexMeta.name == indexName)

/-- `Table::insert_record(trx, record)`: the heap, the transaction log, then every index;
a failure removes what the steps before it added to the heap and the indexes. -/
def insertRecord (trx : Option Trx) (data : Bytes) : Exec (RC × RID) := do
  let data := stampTrx trx data
  let m := (← get).table.tableMeta
  let (rc, rid) ← rhInsertRecord data (m.recordSize + m.fieldNum)
  if rc ≠ .success then
    pure (rc, rid)
  else
    let rc ← logInsert trx rid
    if rc ≠ .success then
      let _ ← rhDeleteRecord rid
      pure (rc, rid)
    else
      let rc ← insertEntryOfIndexes data rid
      if rc ≠ .success then
        let _ ← deleteEntryOfIndexes data rid true
        let _ ← rhDeleteRecord rid
        pure (rc, rid)
      else
        pure (rc, rid)

/-- `Table::insert_record(trx, value_num, values, ret_record)`. -/
def insertRecordValues (trx : Option Trx) (values : List Value) : Exec RC := do
  if values.length = 0 then
    pure .invalidArgument
  else
    match makeRecord (← get).table.tableMeta values with
    | .error rc => pure rc
    | .ok data => return (← insertRecord trx data).1

/-- `Table::delete_record(trx, record)`: with a transaction the deletion is only logged;
without one the record leaves every index and then the heap. -/
def deleteRecord (trx : Option Trx) (record : Record) : Exec RC :=
  match trx with
  | some _ => trxDeleteRecord record
  | none => do
      let rc ← deleteEntryOfIndexes record.data record.rid false
      if rc ≠ .success then pure rc else rhDeleteRecord record.rid

/-- `Table::commit_insert(trx, rid)`. -/
def commitInsert (rid : RID) : Exec RC := do
  let (rc, record) ← rhGetRecord rid
  if rc ≠ .success then pure rc else trxCommitInsert record

/-- `Table::rollback_insert(trx, rid)`: out of every index, then out of the heap. -/
def rollbackInsert (rid : RID) : Exec RC := do
  let (rc, record) ← rhGetRecord rid
  if rc ≠ .success then
    pure rc
  else
    let rc ← deleteEntryOfIndexes record.data rid false
    if rc ≠ .success then pure rc else rhDeleteRecord rid

/-- `Table::commit_delete(trx, rid)`: out of every index, then out of the heap; an index
failure is logged and the heap record removed all the same. -/
def commitDelete (rid : RID) : Exec RC := do
  let (rc, record) ← rhGetRecord rid
  if rc ≠ .success then
    pure rc
  else
    let _ ← deleteEntryOfIndexes record.data record.rid false
    rhDeleteRecord rid

/-- `Table::rollback_delete(trx, rid)`. -/
def rollbackDelete (rid : RID) : Exec RC := do
  let (rc, record) ← rhGetRecord rid
  if rc ≠ .success then pure rc else trxRollbackDelete record

/-- `strcpy(dst, src)`: the bytes of `src` up to and including its first zero. -/
def strcpy (dst src : Bytes) : Bytes :=
  memcpy dst 0 (src.takeWhile (· != 0) ++ [0]) (strlen src + 1)

/-- `Table::commit_update(trx, rid, new_record_data)`. -/
def commitUpdate (rid : RID) (newRecordData : Bytes) : Exec RC := do
  let (rc, record) ← rhGetRecord rid
  if rc ≠ .success then
    pure rc
  else
    let rc ← deleteEntryOfIndexes record.data record.rid false
    if rc ≠ .success then
      pure rc
    else
      let record : Record := ⟨record.rid, strcpy record.data newRecordData⟩
      let rc ← rhUpdateRecord record
      if rc ≠ .success then
        pure rc
      else
        let rc ← insertEntryOfIndexes record.data record.rid
        if rc ≠ .success then
          let _ ← deleteEntryOfIndexes record.data record.rid true
          let _ ← rhDeleteRecord record.rid
          pure rc
        else
          pure rc

/-- The per-record `Table::update_record(trx, record, attribute_name, value)`: the
field found by name among all fields, its index entry (found by index name) removed,
the value checked, the bytes written and stored, the entry put back. A failed re-insert
removes the record from every index and from the heap. -/
def updateRecordOne (record : Record) (attributeName : String) (value : Value) : Exec RC := do
  let t := (← get).table
  let m := t.tableMeta
  match m.findFieldIndexByName attributeName with
  | none => pure .schemaFieldNotExist
  | some i =>
    match m.field i with
    | none => pure .schemaFieldNotExist
    | some field =>
      let index := findIndex t attributeName
      let rc ← match index with
        | some k => indexDeleteEntry k record.data record.rid
        | none => pure .success
      if rc ≠ .success then
        pure rc
      else if isLegal value field ≠ .success then
        pure (isLegal value field)
      else
        let data := updateField m record.data i field value
        let rc ← rhUpdateRecord ⟨record.rid, data⟩
        if rc ≠ .success then
          pure rc
        else
          match index with
          | none => pure rc
          | some k => do
              let rc ← indexInsertEntry k data record.rid
              if rc ≠ .success then
                let _ ← deleteEntryOfIndexes data record.rid true
                let _ ← rhDeleteRecord record.rid
                pure rc
              else
                pure rc

/-! ### Ending a transaction

Modelled from the spec (§4.6): `Trx::commit` runs the log in order through the table's
`commit_*`, `Trx::rollback` runs it in reverse through the `rollback_*`, and both then
discard the log. A failing entry stops the run and its code is returned. `table.cpp` has
no `rollback_update`; no `UPDATE` entry is ever logged, since `update_record`'s logging
branch is disabled. -/

/-- The table's callback for committing one log entry. -/
def commitOperation : Operation → Exec RC
  | .insert rid => commitInsert rid
  | .delete rid => commitDelete rid
  | .update rid newRecordData => commitUpdate rid newRecordData

/-- The table's callback for rolling back one log entry. -/
def rollbackOperation : Operation → Exec RC
  | .insert rid => rollbackInsert rid
  | .delete rid => rollbackDelete rid
  | .update _ _ => pure .success

/-- Run callbacks over log entries in turn, up to the first failure. -/
def runOperations (f : Operation → Exec RC) : List Operation → Exec RC
  | [] => pure .success
  | op :: ops => do
      let rc ← f op
      if rc ≠ .success then pure rc else runOperations f ops

/-- `Trx::commit()`. -/
def trxCommit : Exec RC := do
  let rc ← runOperations commitOperation (← get).log
  modify (·.setLog [])
  pure rc

/-- `Trx::rollback()`. -/
def trxRollback : Exec RC := do
  let rc ← runOperations rollbackOperation (← get).log.reverse
  modify (·.setLog [])
  pure rc

/-! ### What an operation keeps

An operation keeps a `WorldRel` as soon as the collaborator calls it makes do. The
per-record `update_record` and `insert_record(trx, values)` read the meta before they
build the bytes they store, so their lemmas are stated at the world they start from. -/

section Keeps

variable {R : WorldRel}

/-- Logging an insert touches only the log. -/
theorem logInsert_table (trx : Option Trx) (rid : RID) (w : World) :
    ((logInsert trx rid).run w).2.table = w.table := by
  cases trx with
  | none => rfl
  | some t => rw [logInsert, trxInsertRecord_run]; split <;> rfl

theorem insertEntries_preserves {data : Bytes} {rid : RID}
    (h : ∀ k, Preserves R (indexInsertEntry k data rid)) :
    ∀ ks, Preserves R (insertEntries data rid ks)
  | [] => .pure _
  | k :: ks => by
    unfold insertEntries
    refine .bind (h k) fun rc => ?_
    split
    · exact .pure _
    · exact insertEntries_preserves h ks

theorem insertEntryOfIndexes_preserves {data : Bytes} {rid : RID}
    (h : ∀ k, Preserves R (indexInsertEntry k data rid)) :
    Preserves R (insertEntryOfIndexes data rid) :=
  .bind (.of_unchanged fun _ => rfl) fun _ => insertEntries_preserves h _

theorem deleteEntries_preserves {data : Bytes} {rid : RID} {b : Bool}
    (h : ∀ k, Preserves R (indexDeleteEntry k data rid)) :
    ∀ ks rc, Preserves R (deleteEntries data rid b ks rc)
  | [], _ => .pure _
  | k :: ks, _ => by
    unfold deleteEntries
    refine .bind (h k) fun rc => ?_
    split
    · exact .pure _
    · exact deleteEntries_preserves h ks rc

theorem deleteEntryOfIndexes_preserves {data : Bytes} {rid : RID} {b : Bool}
    (h : ∀ k, Preserves R (indexDeleteEntry k data rid)) :
    Preserves R (deleteEntryOfIndexes data rid b) :=
  .bind (.of_unchanged fun _ => rfl) fun _ => deleteEntries_preserves h _ _

theorem insertRecord_preserves {trx : Option Trx} {data : Bytes}
    (hins : ∀ size, Preserves R (rhInsertRecord (stampTrx trx data) size))
    (hdel : ∀ rid, Preserves R (rhDeleteRecord rid))
    (hlog : ∀ rid, Preserves R (logInsert trx rid))
    (hix : ∀ k rid, Preserves R (indexInsertEntry k (stampTrx trx data) rid))
    (hdx : ∀ k rid, Preserves R (indexDeleteEntry k (stampTrx trx data) rid)) :
    Preserves R (insertRecord trx data) := by
  unfold insertRecord
  refine .bind (.of_unchanged fun _ => ?_) fun _ => .bind (hins _) fun ⟨rc, rid⟩ => ?_
  · rfl
  dsimp only
  split
  · exact .pure _
  refine .bind (hlog rid) fun rc => ?_
  split
  · exact .bind (hdel rid) fun _ => .pure _
  refine .bind (insertEntryOfIndexes_preserves fun k => hix k rid) fun rc => ?_
  split
  · exact .bind (deleteEntryOfIndexes_preserves fun k => hdx k rid) fun _ =>
      .bind (hdel rid) fun _ => .pure _
  · exact .pure _

/-- `insert_record(trx, values)` keeps `R` when inserting the record `make_record` builds
from the meta it starts with does. -/
theorem insertRecordValues_rel {trx : Option Trx} {values : List Value} (w : World)
    (h : ∀ data, makeRecord w.table.tableMeta values = .ok data → Preserves R (insertRecord trx data)) :
    R.rel w ((insertRecordValues trx values).run w).2 := by
  unfold insertRecordValues
  split
  · exact R.refl w
  rw [run_bind_eq (show (MonadState.get : Exec World).run w = (w, w) from rfl)]
  split
  · exact R.refl w
  · exact (Preserves.bind (h _ ‹_›) fun _ => .pure _) w

/-- The per-record `update_record` keeps `R` when its calls do: the index calls, the
record manager's delete of the record, and its update of the record with the bytes
`updateField` computes from the meta it starts with, for a field found by the name and a
value `is_legal` accepts. -/
theorem updateRecordOne_rel {record : Record} {attributeName : String} {value : Value}
    (w : World)
    (hupd : ∀ i field, w.table.tableMeta.findFieldIndexByName attributeName = some i →
      w.table.tableMeta.field i = some field → isLegal value field = .success →
      Preserves R (rhUpdateRecord ⟨record.rid, updateField w.table.tableMeta record.data i field value⟩))
    (hdel : Preserves R (rhDeleteRecord record.rid))
    (hix : ∀ k data, Preserves R (indexInsertEntry k data record.rid))
    (hdx : ∀ k data, Preserves R (indexDeleteEntry k data record.rid)) :
    R.rel w ((updateRecordOne record attributeName value).run w).2 := by
  unfold updateRecordOne
  rw [run_bind_eq (show (MonadState.get : Exec World).run w = (w, w) from rfl)]
  dsimp only
  split
  · exact R.refl w
  rename_i i hi
  split
  · exact R.refl w
  rename_i field hf
  -- `find_index` decides whether an entry is deleted first; the rest is the same code
  split
  all_goals
    refine (Preserves.bind (by first | exact hdx _ _ | exact .pure _) fun rc => ?_) w
    split
    · exact .pure _
    split
    · exact .pure _
    rename_i legal
    refine .bind (hupd i field hi hf (not_not.1 legal)) fun rc => ?_
    split
    · exact .pure _
    split
    · exact .pure _
    refine .bind (hix _ _) fun rc => ?_
    split
    · exact .bind (deleteEntryOfIndexes_preserves fun k => hdx k _) fun _ =>
        .bind hdel fun _ => .pure _
    · exact .pure _

theorem runOperations_preserves {f : Operation → Exec RC} (h : ∀ op, Preserves R (f op)) :
    ∀ ops, Preserves R (runOperations f ops)
  | [] => .pure _
  | op :: ops => by
    unfold runOperations
    refine .bind (h op) fun rc => ?_
    split
    · exact .pure _
    · exact runOperations_preserves h ops

/-- The per-record `update_record` touches no other record of the heap. -/
theorem updateRecordOne_keepsOthers (record : Record) (attributeName : String) (value : Value)
    (w : World) : (keepsOthers record.rid).rel w ((updateRecordOne record attributeName value).run w).2 :=
  updateRecordOne_rel w (fun _ _ _ _ _ => rhUpdateRecord_keepsOthers _) (rhDeleteRecord_keepsOthers _)
    (fun k d => .keepsOthers_of_heap fun w => (indexInsertEntry_heap k d _ w).2)
    (fun k d => .keepsOthers_of_heap fun w => (indexDeleteEntry_heap k d _ w).2)

end Keeps

/-! ### What a successful operation did

One lemma per operation, read off its run: from a `SUCCESS` result, what each of its calls
must have returned and so what the table and the log now hold. -/

/-- The entries a successful `insert_record` adds to the log. -/
def insertLog : Option Trx → RID → List Operation
  | some _, rid => [.insert rid]
  | none, _ => []

theorem logInsert_success {trx : Option Trx} {rid : RID} {w w' : World}
    (h : (logInsert trx rid).run w = (.success, w')) :
    w'.table = w.table ∧ w'.log = w.log ++ insertLog trx rid := by
  cases trx with
  | none => cases h; simp [insertLog]
  | some t =>
    simp only [logInsert, trxInsertRecord_run] at h
    split at h
    · cases h; simp [insertLog]
    · exact absurd (congrArg Prod.fst h) ‹_›

theorem insertEntries_success {data : Bytes} {rid : RID} : ∀ {ks : List Nat} {w w' : World},
    (insertEntries data rid ks).run w = (.success, w') →
    w'.table = { w.table with
      indexes := ks.foldl (fun is k => is.modify (·.insertEntry data rid) k) w.table.indexes } ∧
    w'.log = w.log
  | [], w, w', h => by cases h; exact ⟨rfl, rfl⟩
  | k :: ks, w, w', h => by
    simp only [insertEntries, StateT.run_bind, indexInsertEntry_run, Id.bind_eq] at h
    split at h
    · simp only [ne_eq, not_true_eq_false, if_false] at h
      obtain ⟨ht, hl⟩ := insertEntries_success h
      exact ⟨ht, hl⟩
    · simp only [ne_eq, ‹¬ _›, not_false_eq_true, if_true] at h
      exact absurd (congrArg Prod.fst h) ‹_›

/-- A successful `insert_entry_of_indexes` put the record into every index. -/
theorem insertEntryOfIndexes_success {data : Bytes} {rid : RID} {w w' : World}
    (h : (insertEntryOfIndexes data rid).run w = (.success, w')) :
    w'.table = { w.table with indexes := w.table.indexes.map (·.insertEntry data rid) } ∧
    w'.log = w.log := by
  rw [← foldl_modify_range]
  exact insertEntries_success h

/-- A successful `insert_record` put the record at the first free slot, logged it when
there is a transaction, and put it into every index. -/
theorem insertRecord_success {trx : Option Trx} {data : Bytes} {rid : RID} {w w' : World}
    (h : (insertRecord trx data).run w = ((.success, rid), w')) :
    let stored := readBytes (stampTrx trx data)
      (w.table.tableMeta.recordSize + w.table.tableMeta.fieldNum)
    rid = w.table.recordHandler.freeSlot ∧
    w'.table = { w.table with
      recordHandler := (w.table.recordHandler.insert stored).2
      indexes := w.table.indexes.map (·.insertEntry (stampTrx trx data) rid) } ∧
    w'.log = w.log ++ insertLog trx rid := by
  intro stored
  simp only [insertRecord, StateT.run_bind, StateT.run_get, Id.pure_eq, Id.bind_eq] at h
  rw [rhInsertRecord_run] at h
  by_cases hn : w.next = .success
  case neg =>
    simp only [hn, if_false, ne_eq, not_false_eq_true, if_true] at h
    exact absurd (congrArg (·.1.1) h) hn
  simp only [hn, if_true, ne_eq, not_true_eq_false, if_false] at h
  rcases hl : (logInsert trx (w.table.recordHandler.insert stored).1).run
    (w.pop.setRecordHandler (w.table.recordHandler.insert stored).2) with ⟨rc1, w1⟩
  rw [run_bind_eq hl] at h
  by_cases h1 : rc1 = .success
  case neg =>
    simp only [h1, ne_eq, not_false_eq_true, if_true] at h
    exact absurd (congrArg (·.1.1) h) h1
  subst h1
  obtain ⟨ht1, hl1⟩ := logInsert_success hl
  simp only [ne_eq, not_true_eq_false, if_false] at h
  rcases hi : (insertEntryOfIndexes (stampTrx trx data)
    (w.table.recordHandler.insert stored).1).run w1 with ⟨rc2, w2⟩
  rw [run_bind_eq hi] at h
  by_cases h2 : rc2 = .success
  case neg =>
    simp only [h2, ne_eq, not_false_eq_true, if_true] at h
    exact absurd (congrArg (·.1.1) h) h2
  subst h2
  obtain ⟨ht2, hl2⟩ := insertEntryOfIndexes_success hi
  simp only [ne_eq, not_true_eq_false, if_false, StateT.run_pure, Id.pure_eq, Prod.mk.injEq] at h
  obtain ⟨⟨-, rfl⟩, rfl⟩ := h
  refine ⟨rfl, ?_, ?_⟩
  · rw [ht2, ht1]; rfl
  · rw [hl2, hl1]; rfl

/-- A successful `insert_record(trx, values)` built its record with `make_record` and
inserted it. -/
theorem insertRecordValues_success {trx : Option Trx} {values : List Value} {w w' : World}
    (h : (insertRecordValues trx values).run w = (.success, w')) :
    ∃ data rid, makeRecord w.table.tableMeta values = .ok data ∧
      (insertRecord trx data).run w = ((.success, rid), w') := by
  unfold insertRecordValues at h
  split at h
  · exact absurd (congrArg Prod.fst h) (by simp)
  simp only [StateT.run_bind, StateT.run_get, Id.pure_eq, Id.bind_eq] at h
  split at h
  · exact absurd (congrArg Prod.fst h) (makeRecord_error_ne_success ‹_›)
  rename_i data hm
  rcases hi : (insertRecord trx data).run w with ⟨⟨rc, rid⟩, w1⟩
  rw [run_bind_eq hi] at h
  cases h
  exact ⟨data, rid, hm, hi⟩

theorem runOperations_append_of_success {f : Operation → Exec RC} {ops : List Operation}
    (ops' : List Operation) : ∀ {w w₁ : World},
    (runOperations f ops).run w = (.success, w₁) →
    (runOperations f (ops ++ ops')).run w = (runOperations f ops').run w₁ := by
  induction ops with
  | nil => intro w w₁ h; cases h; rfl
  | cons op ops ih =>
    intro w w₁ h
    simp only [List.cons_append, runOperations, StateT.run_bind, Id.bind_eq] at h ⊢
    split at h
    · exact absurd (congrArg Prod.fst h) ‹_›
    · rw [if_neg ‹_›]
      exact ih h

end Miniob
