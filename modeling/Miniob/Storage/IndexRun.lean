import Miniob.Storage.IndexConsistency

/-!
The indexes stay up to date over whole sessions in which every collaborator call succeeds.

`Settled w` says that no call will fail and that the table is `Indexed`. From a settled
world each operation of `table.cpp` below makes only the writes of `TableStep`, which keep
`Indexed` (`Indexed.step`); `Stepped w w'` records that `w'` is reached so:

* `insert_record(trx, values)`, whatever `make_record` says (`insertRecordValues_stepped`);
* `delete_record(trx, filter)`, with or without a transaction (`deleteRecords_settled`);
* `create_index` without a transaction, on a user field, over a heap of at most `INT_MAX`
  records (`createIndex_stepped`);
* `update_record(trx, attribute_name, value, ...)` when `UpdateSafe` holds: the attribute is
  a user field, the value is legal for it, and every index on the field is the one
  `find_index(attribute_name)` finds (`updateRecord_stepped`);
* `Trx::commit` and `Trx::rollback`, whatever the log holds (`trxCommit_settled`,
  `trxRollback_settled`).

`indexConsistent_run` puts them together over any session made of them. The update needs
its condition: `update_leaves_stale_index_entry` is an index `find_index` misses, and
`failed_update_drops_index_entry` a value `is_legal` rejects.
-/

namespace Miniob

/-! ### The invariant -/

/-- No call will fail, and the table's indexes are up to date, each on a user field. -/
structure Settled (w : World) : Prop where
  clean : w.faults = []
  indexed : Indexed w.table

/-- `w'` is reached from `w` by table writes, and no call will fail there. -/
def Stepped (w w' : World) : Prop :=
  w'.faults = [] ∧ Relation.ReflTransGen TableStep w.table w'.table

theorem Stepped.refl {w : World} (hs : Settled w) : Stepped w w := ⟨hs.clean, .refl⟩

theorem Stepped.trans {w₁ w₂ w₃ : World} (s₁ : Stepped w₁ w₂) (s₂ : Stepped w₂ w₃) :
    Stepped w₁ w₃ :=
  ⟨s₂.1, s₁.2.trans s₂.2⟩

/-- The table writes keep `Indexed`. -/
theorem Settled.stepped {w w' : World} (hs : Settled w) (s : Stepped w w') : Settled w' :=
  ⟨s.1, hs.indexed.steps s.2⟩

/-- From a settled world where `P` holds of the table, a run makes only table writes and
keeps `P`. -/
def settledWith (P : Table → Prop) : WorldRel where
  rel w w' := Settled w → P w.table → Stepped w w' ∧ P w'.table
  refl w hs hp := ⟨.refl hs, hp⟩
  trans h₁ h₂ hs hp :=
    let ⟨s₁, hp₁⟩ := h₁ hs hp
    let ⟨s₂, hp₂⟩ := h₂ (hs.stepped s₁) hp₁
    ⟨s₁.trans s₂, hp₂⟩
  pop w hs hp := ⟨⟨by simp [hs.clean], .refl⟩, hp⟩

/-- `settledWith` with nothing kept along. -/
def settled : WorldRel := settledWith fun _ => True

theorem preserves_settled {α : Type} {act : Exec α}
    (h : ∀ w, Settled w → Stepped w (act.run w).2) : Preserves settled act :=
  fun w hs _ => ⟨h w hs, trivial⟩

/-- A callback that starts with `get_record(rid)` and changes nothing when no record is
there makes only table writes once it does so for the current record at `rid`. -/
theorem stepped_of_current {act : Exec RC} {rid : RID} {w : World} (hs : Settled w)
    (missing : w.table.recordHandler.get rid = none → (act.run w).2 = w)
    (found : ∀ r, Current w r → r.rid = rid → Stepped w (act.run w).2) :
    Stepped w (act.run w).2 := by
  cases hg : w.table.recordHandler.get rid with
  | none => rw [missing hg]; exact .refl hs
  | some r =>
    obtain ⟨-, rfl⟩ := RecordFileHandler.get_eq_some_iff.1 hg
    exact found r hg rfl

/-- A current record taken out of every index and then out of the heap. -/
theorem Settled.remove {w : World} (hs : Settled w) {r : Record} (cur : Current w r)
    {act : Exec RC} (run : ∀ {h'}, w.table.recordHandler.delete r.rid = some h' →
      (∀ i ∈ w.table.indexes, (i.key r.data, r.rid) ∈ i.entries) →
      act.run w = (.success,
        (w.setIndexes (w.table.indexes.map (·.eraseEntry r.data r.rid))).setRecordHandler h')) :
    Stepped w (act.run w).2 := by
  obtain ⟨h', hd⟩ := RecordFileHandler.delete_of_get cur
  rw [run hd fun i hi => hs.indexed.mem_entries (RecordFileHandler.get_eq_some_iff.1 cur).1 hi]
  exact ⟨hs.clean, .single (.remove cur hd)⟩

/-- A current record's trx word rewritten in place. -/
theorem Settled.rewrite {w : World} (hs : Settled w) {r : Record} (cur : Current w r)
    {act : Exec RC} {n : Nat}
    (run : ∀ {h'}, w.table.recordHandler.update ⟨r.rid, setTrxWord r.data n⟩ = some h' →
      act.run w = (.success, w.setRecordHandler h')) :
    Stepped w (act.run w).2 := by
  obtain ⟨h', hu⟩ := RecordFileHandler.update_of_get cur (setTrxWord r.data n)
  rw [run hu]
  exact ⟨hs.clean, .single (.rewriteTrxWord hs.indexed cur hu)⟩

/-! ### `insert_record` and `delete_record` -/

/-- `insert_record(trx, values)` stores the record `make_record` builds and puts its entry,
keyed alike, into every index. -/
theorem insertRecordValues_stepped (trx : Option Trx) (values : List Value) {w : World}
    (hs : Settled w) : Stepped w ((insertRecordValues trx values).run w).2 := by
  unfold insertRecordValues
  split
  · exact .refl hs
  rw [run_bind_eq (show (MonadState.get : Exec World).run w = (w, w) from rfl)]
  split
  · exact .refl hs
  rename_i data made
  rw [run_bind_eq (insertRecord_run_of_nil hs.clean trx data)]
  obtain ⟨arity, rfl⟩ := makeRecord_eq_ok made
  refine ⟨hs.clean, .single (.insert (fun i _ => Index.key_readBytes ?_) (length_readBytes _ _))⟩
  cases trx <;> simp [stampTrx, initTrxInfo, length_setTrxWord, length_writeValues] <;> omega

/-- The per-record `delete_record` touches no other record. -/
theorem deleteRecord_keepsOthers (trx : Option Trx) (r : Record) :
    Preserves (keepsOthers r.rid) (deleteRecord trx r) := by
  cases trx with
  | some t =>
    refine .call fun w rid ne => ?_
    dsimp only [StateT.run]
    split
    next hu => exact RecordFileHandler.get_update_of_ne hu ne
    next => rfl
  | none =>
    refine .bind (deleteEntryOfIndexes_preserves fun k =>
      .keepsOthers_of_heap fun w => (indexDeleteEntry_heap k _ _ w).2) fun rc => ?_
    split
    · exact .pure _
    · exact rhDeleteRecord_keepsOthers _

/-- Without a transaction the current record leaves the heap and every index; with one, it
is marked deleted in its trx word, which no key reads. -/
theorem deleteRecord_stepped {trx : Option Trx} {r : Record} {w : World} (hs : Settled w)
    (cur : Current w r) : Stepped w ((deleteRecord trx r).run w).2 := by
  cases trx with
  | none => exact hs.remove cur fun hd hmem => deleteRecord_run_of_mem hs.clean hmem hd
  | some t =>
    obtain ⟨h', hu⟩ := RecordFileHandler.update_of_get cur (markDeleted r.data)
    rw [deleteRecord, trxDeleteRecord_run_of_update hs.clean hu]
    exact ⟨hs.clean, .single (.rewriteTrxWord hs.indexed cur hu)⟩

theorem deleterReader_settled (trx : Option Trx) : ReaderSpec trx (deleterReader trx) settled :=
  fun r _ w cur _ =>
    ⟨fun hs _ => ⟨deleteRecord_stepped hs cur, trivial⟩, deleteRecord_keepsOthers trx r w⟩

theorem deleteRecords_settled (cmp : KeyOrder) (trx : Option Trx) (filter : Option ConditionFilter) :
    Preserves settled (deleteRecords cmp trx filter) :=
  scanRecord_preserves cmp trx _ (deleterReader_settled trx) _ _ _

/-! ### `create_index` -/

/-- `create_index` builds the new index over every record of the heap. -/
theorem createIndex_stepped (cmp : KeyOrder) (indexName attributeName : String) {w : World}
    (hs : Settled w)
    (user : ∀ field ∈ w.table.tableMeta.fieldByName attributeName,
      field ∈ w.table.tableMeta.userFields)
    (fits : w.table.recordHandler.records.length ≤ intMax) :
    Stepped w ((createIndex cmp none indexName attributeName).run w).2 := by
  rcases createIndex_run_of_nil cmp hs.clean indexName attributeName fits with
    same | ⟨field, fresh, found, built⟩
  · rw [same]
    exact .refl hs
  rw [built]
  refine ⟨hs.clean, .single (.addIndex (Index.UpToDate.build _ _ _) ?_
    (Index.indexMeta_build _ _ _) fresh (by rw [Index.fieldMeta_build]))⟩
  rw [Index.fieldMeta_build]
  exact user field found

/-! ### `update_record` -/

theorem findIndex_eq_findIdx? (t : Table) (attributeName : String) :
    findIndex t attributeName = (t.indexes.map (·.indexMeta)).findIdx? (·.name == attributeName) :=
  by rw [findIndex, List.findIdx?_map]; rfl

theorem findIndex_lt {t : Table} {attributeName : String} {k : Nat}
    (h : findIndex t attributeName = some k) : k < t.indexes.length := by
  obtain ⟨lt, -⟩ := List.findIdx?_eq_some_iff_getElem.1 h
  exact lt

/-- Setting a position to an element that `f` does not tell from the old one. -/
theorem map_set_of_getElem? {α β : Type} {f : α → β} {l : List α} {k : Nat} {a b : α}
    (hk : l[k]? = some a) (hf : f b = f a) : (l.set k b).map f = l.map f := by
  refine List.ext_getElem? fun j => ?_
  by_cases e : k = j
  · subst e
    obtain ⟨lt, rfl⟩ := List.getElem?_eq_some_iff.1 hk
    simp [lt, hf]
  · simp [List.getElem?_set_ne e]

/-- What the per-record `update_record` of `attribute_name` to `value` needs to keep the
indexes up to date: the attribute is a user field, the value is legal for it, and every
index on that field is the one `find_index(attribute_name)` finds. -/
def UpdateSafe (t : Table) (attributeName : String) (value : Value) : Prop :=
  ∀ i ∈ t.tableMeta.findFieldIndexByName attributeName, ∀ field ∈ t.tableMeta.field i,
    t.tableMeta.sysFieldNum ≤ i ∧ isLegal value field = .success ∧
      ∀ j (hj : j < t.indexes.length), t.indexes[j].fieldMeta = field →
        findIndex t attributeName = some j

instance (t : Table) (attributeName : String) (value : Value) :
    Decidable (UpdateSafe t attributeName value) :=
  inferInstanceAs (Decidable (∀ i ∈ t.tableMeta.findFieldIndexByName attributeName, _))

/-- `UpdateSafe` reads only the meta and the name and field of each index. -/
theorem UpdateSafe.congr {t t' : Table} {attributeName : String} {value : Value}
    (safe : UpdateSafe t attributeName value) (meta : t'.tableMeta = t.tableMeta)
    (names : t'.indexes.map (·.indexMeta) = t.indexes.map (·.indexMeta))
    (fields : t'.indexes.map (·.fieldMeta) = t.indexes.map (·.fieldMeta)) :
    UpdateSafe t' attributeName value := by
  intro i hi field hf
  rw [meta] at hi hf ⊢
  obtain ⟨sys, legal, only⟩ := safe i hi field hf
  refine ⟨sys, legal, fun j hj e => ?_⟩
  have hlen : t'.indexes.length = t.indexes.length := by simpa using congrArg List.length fields
  have same : t.indexes[j].fieldMeta = t'.indexes[j].fieldMeta := by
    simpa [List.getElem?_eq_getElem hj, List.getElem?_eq_getElem (show j < t.indexes.length by omega)]
      using (congrArg (·[j]?) fields).symm
  rw [findIndex_eq_findIdx?, names, ← findIndex_eq_findIdx?]
  exact only j (by omega) (same.trans e)

/-- `Settled`, with the update of `attribute_name` to `value` safe. -/
def updateSettled (attributeName : String) (value : Value) : WorldRel :=
  settledWith fun t => UpdateSafe t attributeName value

/-- The per-record `update_record` of a current record, made safe: each index on another
field keeps its key, and the index `find_index` finds is re-keyed. -/
theorem updateRecordOne_settled (r : Record) (attributeName : String) (value : Value) {w : World}
    (cur : Current w r) :
    (updateSettled attributeName value).rel w ((updateRecordOne r attributeName value).run w).2 := by
  intro hs safe
  cases hi : w.table.tableMeta.findFieldIndexByName attributeName with
  | none =>
    rw [updateRecordOne_run_of_missing hi]
    exact ⟨.refl hs, safe⟩
  | some i =>
  obtain ⟨field, hf⟩ : ∃ field, w.table.tableMeta.field i = some field :=
    ⟨_, List.getElem?_eq_getElem (w.table.tableMeta.lt_of_findFieldIndexByName hi)⟩
  obtain ⟨sys, legal, only⟩ := safe i hi field hf
  obtain ⟨h', hu⟩ := RecordFileHandler.update_of_get cur
    (updateField w.table.tableMeta r.data i field value)
  -- an index on another field than the one `find_index` finds keeps its key
  have keeps : ∀ j ix, w.table.indexes[j]? = some ix → findIndex w.table attributeName ≠ some j →
      ix.key (updateField w.table.tableMeta r.data i field value) = ix.key r.data := by
    intro j ix hix ne
    obtain ⟨hj, rfl⟩ := List.getElem?_eq_some_iff.1 hix
    exact Index.key_updateField sys hf (hs.indexed.userField _ (List.getElem_mem hj))
      (fun e => ne (only j hj e)) _ _
  cases found : findIndex w.table attributeName with
  | none =>
    rw [updateRecordOne_run_of_unindexed hs.clean hi hf legal hu found]
    refine ⟨⟨hs.clean, .single (.replace cur hu (by simp) rfl fun j ix hix => ?_)⟩,
      safe.congr rfl rfl rfl⟩
    exact .inl ⟨hix, keeps j ix hix (by simp [found])⟩
  | some k =>
    obtain ⟨ix, hk⟩ : ∃ ix, w.table.indexes[k]? = some ix :=
      ⟨_, List.getElem?_eq_getElem (findIndex_lt found)⟩
    have mem := (RecordFileHandler.get_eq_some_iff.1 cur).1
    rw [updateRecordOne_run_of_indexed hs.clean hi hf legal hu found hk
      (hs.indexed.mem_entries mem (List.getElem?_mem hk))]
    refine ⟨⟨hs.clean, .single (.replace cur hu (by simp) (by simp) fun j ix' hix' => ?_)⟩,
      safe.congr rfl (map_set_of_getElem? hk rfl) (map_set_of_getElem? hk rfl)⟩
    by_cases e : k = j
    · subst e
      obtain rfl := Option.some.inj (hix'.symm.trans hk)
      exact .inr (List.getElem?_set_self (findIndex_lt found))
    · refine .inl ⟨by rw [List.getElem?_set_ne e, hix'], keeps j ix' hix' ?_⟩
      rw [found]
      exact fun same => e (Option.some.inj same)

theorem updaterReader_settled (trx : Option Trx) (attributeName : String) (value : Value) :
    ReaderSpec trx (updaterReader attributeName value) (updateSettled attributeName value) :=
  fun r _ w cur _ => ⟨updateRecordOne_settled r attributeName value cur,
    updateRecordOne_keepsOthers r attributeName value w⟩

/-- The statement-level `update_record` of a safe attribute and value. -/
theorem updateRecord_stepped (cmp : KeyOrder) (trx : Option Trx) (attributeName : String)
    (value : Value) (conditions : List Condition) {w : World} (hs : Settled w)
    (safe : UpdateSafe w.table attributeName value) :
    Stepped w ((updateRecord cmp trx attributeName value conditions).run w).2 :=
  (updateRecord_preserves cmp trx (updaterReader_settled trx attributeName value) conditions w
    hs safe).1

/-! ### Ending a transaction -/

/-- Each `commit_*` callback, on whatever the log names. -/
theorem commitOperation_settled (op : Operation) : Preserves settled (commitOperation op) :=
  preserves_settled fun w hs => by
  cases op with
  | insert rid =>
    refine stepped_of_current hs (fun hg => congrArg Prod.snd (commitInsert_run_of_none hs.clean hg))
      fun r cur e => ?_
    subst e
    exact hs.rewrite cur fun hu => commitInsert_run_of_get hs.clean cur hu
  | delete rid =>
    refine stepped_of_current hs (fun hg => congrArg Prod.snd (commitDelete_run_of_none hs.clean hg))
      fun r cur e => ?_
    subst e
    exact hs.remove cur fun hd hmem => commitDelete_run_of_mem hs.clean cur hmem hd
  | update rid newRecordData =>
    refine stepped_of_current hs
      (fun hg => congrArg Prod.snd (commitUpdate_run_of_none hs.clean newRecordData hg))
      fun r cur e => ?_
    subst e
    obtain ⟨h', hu⟩ := RecordFileHandler.update_of_get cur (strcpy r.data newRecordData)
    have mem := (RecordFileHandler.get_eq_some_iff.1 cur).1
    rw [commitOperation, commitUpdate_run_of_mem hs.clean cur
      (fun i hi => hs.indexed.mem_entries mem hi) hu]
    refine ⟨hs.clean, .single (.replace cur hu (by simp [strcpy]) (by simp) fun j ix hix => .inr ?_)⟩
    simp [List.getElem?_map, hix]

/-- Each `rollback_*` callback, on whatever the log names. -/
theorem rollbackOperation_settled (op : Operation) : Preserves settled (rollbackOperation op) :=
  preserves_settled fun w hs => by
  cases op with
  | insert rid =>
    refine stepped_of_current hs
      (fun hg => congrArg Prod.snd (rollbackInsert_run_of_none hs.clean hg)) fun r cur e => ?_
    subst e
    exact hs.remove cur fun hd hmem => rollbackInsert_run_of_mem hs.clean cur hmem hd
  | delete rid =>
    refine stepped_of_current hs
      (fun hg => congrArg Prod.snd (rollbackDelete_run_of_none hs.clean hg)) fun r cur e => ?_
    subst e
    exact hs.rewrite cur fun hu => rollbackDelete_run_of_get hs.clean cur hu
  | update _ _ => exact .refl hs

/-- Dropping the log keeps the table and the fault list. -/
theorem setLog_settled : Preserves settled (modify fun w : World => w.setLog []) :=
  preserves_settled fun _ hs => ⟨hs.clean, .refl⟩

theorem trxCommit_settled : Preserves settled trxCommit :=
  .bind (.of_unchanged fun _ => rfl) fun w =>
    .bind (runOperations_preserves commitOperation_settled w.log) fun _ =>
      .bind setLog_settled fun _ => .pure _

theorem trxRollback_settled : Preserves settled trxRollback :=
  .bind (.of_unchanged fun _ => rfl) fun w =>
    .bind (runOperations_preserves rollbackOperation_settled w.log.reverse) fun _ =>
      .bind setLog_settled fun _ => .pure _

/-! ### Whole sessions -/

/-- Sessions of table operations, each in the form that keeps the indexes up to date:
`INSERT`s and `DELETE`s with or without a transaction, `UPDATE`s of a safe attribute and
value, `CREATE INDEX` outside a transaction on a user field, `COMMIT` and `ROLLBACK`. -/
inductive IndexedRun (cmp : KeyOrder) : World → World → Prop
  | done (w : World) : IndexedRun cmp w w
  | insert {w w' : World} (trx : Option Trx) (values : List Value) :
      IndexedRun cmp ((insertRecordValues trx values).run w).2 w' → IndexedRun cmp w w'
  | delete {w w' : World} (trx : Option Trx) (filter : Option ConditionFilter) :
      IndexedRun cmp ((deleteRecords cmp trx filter).run w).2 w' → IndexedRun cmp w w'
  | update {w w' : World} (trx : Option Trx) (attributeName : String) (value : Value)
      (conditions : List Condition) (safe : UpdateSafe w.table attributeName value) :
      IndexedRun cmp ((updateRecord cmp trx attributeName value conditions).run w).2 w' →
        IndexedRun cmp w w'
  | createIndex {w w' : World} (indexName attributeName : String)
      (user : ∀ field ∈ w.table.tableMeta.fieldByName attributeName,
        field ∈ w.table.tableMeta.userFields)
      (fits : w.table.recordHandler.records.length ≤ intMax) :
      IndexedRun cmp ((createIndex cmp none indexName attributeName).run w).2 w' →
        IndexedRun cmp w w'
  | commit {w w' : World} : IndexedRun cmp (trxCommit.run w).2 w' → IndexedRun cmp w w'
  | rollback {w w' : World} : IndexedRun cmp (trxRollback.run w).2 w' → IndexedRun cmp w w'

theorem IndexedRun.stepped {cmp : KeyOrder} {w w' : World} (run : IndexedRun cmp w w') :
    Settled w → Stepped w w' := by
  induction run with
  | done => exact .refl
  | insert trx values _ ih =>
    intro hs
    have s := insertRecordValues_stepped trx values hs
    exact s.trans (ih (hs.stepped s))
  | delete trx filter _ ih =>
    intro hs
    have s := (deleteRecords_settled cmp trx filter _ hs trivial).1
    exact s.trans (ih (hs.stepped s))
  | update trx attributeName value conditions safe _ ih =>
    intro hs
    have s := updateRecord_stepped cmp trx attributeName value conditions hs safe
    exact s.trans (ih (hs.stepped s))
  | createIndex indexName attributeName user fits _ ih =>
    intro hs
    have s := createIndex_stepped cmp indexName attributeName hs user fits
    exact s.trans (ih (hs.stepped s))
  | commit _ ih =>
    intro hs
    have s := (trxCommit_settled _ hs trivial).1
    exact s.trans (ih (hs.stepped s))
  | rollback _ ih =>
    intro hs
    have s := (trxRollback_settled _ hs trivial).1
    exact s.trans (ih (hs.stepped s))

/-- From a table whose indexes are up to date and on user fields, every session of such
operations in which no call fails leaves every index holding exactly one entry per record
of the heap, keyed by the record's bytes. -/
theorem indexConsistent_run {cmp : KeyOrder} {w w' : World} (clean : w.faults = [])
    (indexed : Indexed w.table) (run : IndexedRun cmp w w') : IndexConsistent w'.table :=
  (indexed.steps (run.stepped ⟨clean, indexed⟩).2).consistent

/-- `CREATE INDEX a ON t(a)`, `UPDATE t SET a = 2`, then in transaction `7` `INSERT INTO t
VALUES (5)` and `DELETE FROM t`, then `COMMIT`. -/
def sessionWorld : World :=
  (trxCommit.run ((deleteRecords intOrder (some ⟨7⟩) none).run
    ((insertRecordValues (some ⟨7⟩) [valueInitInteger 5 false]).run
      ((updateRecord intOrder none "a" (valueInitInteger 2 false) []).run
        ((createIndex intOrder none "a" "a").run intTableWorld).2).2).2).2).2

theorem sessionWorld_indexConsistent :
    intTableWorld.faults = [] ∧ Indexed intTableWorld.table ∧ IndexConsistent sessionWorld.table :=
  ⟨rfl, by decide, indexConsistent_run rfl (by decide)
    (.createIndex "a" "a" (by decide) (by decide)
      (.update none "a" (valueInitInteger 2 false) [] (by decide)
        (.insert (some ⟨7⟩) [valueInitInteger 5 false]
          (.delete (some ⟨7⟩) none (.commit (.done _))))))⟩

end Miniob
