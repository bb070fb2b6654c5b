import Miniob.Storage.Scan

/-!
The table's operations when every collaborator call succeeds.

With `World.faults = []` no call fails and no call takes anything from the list, so the
run of an operation is a plain function of the table. The lemmas below compute it, one per
operation, from what the table holds: `get_record` finds the record, every index holds the
record's entry, the checks of `create_index` or of `update_record` pass. The proofs of the
table's invariants (`Rollback`, `IndexConsistency`) cite them and do not unfold an
operation.

A reader that succeeds and leaves the world alone makes a scan a fold over the records it
is handed (`scanHeap_fold`); `create_index`'s reader is one. On the index path it is a fold
over the records that the first `limit` rids name and that pass the filter
(`scanIndex_fold`): that loop counts every rid it reads, not the records it hands over. Whatever its reader does to the
record it is handed, the index loop runs as the heap loop over the records its rids name
(`scanIndex_run_eq_scanHeap`).
-/

namespace Miniob

/-! ### One call -/

section Calls

variable {w : World} (hnil : w.faults = [])
include hnil

theorem call_run_of_nil {α : Type} (fail : RC → α) (act : Exec α) :
    (call fail act).run w = act.run w := by
  rw [call_run, if_pos (w.next_of_faults_nil hnil), w.pop_of_faults_nil hnil]

theorem rhGetRecord_run_of_get {rid : RID} {r : Record}
    (hg : w.table.recordHandler.get rid = some r) :
    (rhGetRecord rid).run w = ((.success, r), w) := by
  rw [rhGetRecord_run, if_pos (w.next_of_faults_nil hnil), w.pop_of_faults_nil hnil, hg]

theorem rhGetRecord_run_of_none {rid : RID} (hg : w.table.recordHandler.get rid = none) :
    (rhGetRecord rid).run w = ((.genericError, ⟨rid, []⟩), w) := by
  rw [rhGetRecord_run, if_pos (w.next_of_faults_nil hnil), w.pop_of_faults_nil hnil, hg]

theorem rhDeleteRecord_run_of_delete {rid : RID} {h : RecordFileHandler}
    (hd : w.table.recordHandler.delete rid = some h) :
    (rhDeleteRecord rid).run w = (.success, w.setRecordHandler h) := by
  rw [rhDeleteRecord_run, if_pos (w.next_of_faults_nil hnil), w.pop_of_faults_nil hnil, hd]

theorem rhUpdateRecord_run_of_update {rec : Record} {h : RecordFileHandler}
    (hu : w.table.recordHandler.update rec = some h) :
    (rhUpdateRecord rec).run w = (.success, w.setRecordHandler h) := by
  rw [rhUpdateRecord_run, if_pos (w.next_of_faults_nil hnil), w.pop_of_faults_nil hnil, hu]

theorem trxRewrite_run_of_update {f : Bytes → Bytes} {record : Record} {h : RecordFileHandler}
    (hu : w.table.recordHandler.update ⟨record.rid, f record.data⟩ = some h) :
    (trxRewrite f record).run w = (.success, w.setRecordHandler h) := by
  rw [trxRewrite_run, if_pos (w.next_of_faults_nil hnil), w.pop_of_faults_nil hnil, hu]

theorem trxDeleteRecord_run_of_update {record : Record} {h : RecordFileHandler}
    (hu : w.table.recordHandler.update ⟨record.rid, markDeleted record.data⟩ = some h) :
    (trxDeleteRecord record).run w =
      (.success, (w.setRecordHandler h).setLog (w.log ++ [.delete record.rid])) := by
  rw [trxDeleteRecord_run, if_pos (w.next_of_faults_nil hnil), w.pop_of_faults_nil hnil, hu]

theorem indexInsertEntry_run_of_nil (k : Nat) (data : Bytes) (rid : RID) :
    (indexInsertEntry k data rid).run w =
      (.success, w.setIndexes (w.table.indexes.modify (·.insertEntry data rid) k)) := by
  rw [indexInsertEntry_run, if_pos (w.next_of_faults_nil hnil), w.pop_of_faults_nil hnil]

theorem indexDeleteEntry_run_of_mem {k : Nat} {data : Bytes} {rid : RID} {i : Index}
    (hk : w.table.indexes[k]? = some i) (hmem : (i.key data, rid) ∈ i.entries) :
    (indexDeleteEntry k data rid).run w =
      (.success, w.setIndexes (w.table.indexes.set k (i.eraseEntry data rid))) := by
  rw [indexDeleteEntry_run, if_pos (w.next_of_faults_nil hnil), w.pop_of_faults_nil hnil]
  simp only [hk, Option.bind_eq_bind, Option.some_bind, Index.deleteEntry_of_mem hmem]

theorem logInsert_run_of_nil (trx : Option Trx) (rid : RID) :
    (logInsert trx rid).run w = (.success, w.setLog (w.log ++ insertLog trx rid)) := by
  cases trx with
  | none => simp [logInsert, insertLog, World.setLog]
  | some t =>
    rw [logInsert, trxInsertRecord_run, if_pos (w.next_of_faults_nil hnil),
      w.pop_of_faults_nil hnil]
    rfl

end Calls

/-! ### The loops over the indexes -/

theorem insertEntries_run_of_nil {data : Bytes} {rid : RID} :
    ∀ (ks : List Nat) {w : World}, w.faults = [] →
      (insertEntries data rid ks).run w = (.success,
        w.setIndexes (ks.foldl (fun is k => is.modify (·.insertEntry data rid) k) w.table.indexes))
  | [], w, _ => by simp [insertEntries]
  | k :: ks, w, hnil => by
    rw [insertEntries, run_bind_eq (indexInsertEntry_run_of_nil hnil k data rid)]
    simp only [ne_eq, not_true_eq_false, if_false]
    rw [@insertEntries_run_of_nil data rid ks
      (w.setIndexes (w.table.indexes.modify (·.insertEntry data rid) k)) hnil]
    simp

/-- With every call succeeding, `insert_entry_of_indexes` puts the record into every index. -/
theorem insertEntryOfIndexes_run_of_nil {w : World} (hnil : w.faults = []) (data : Bytes)
    (rid : RID) : (insertEntryOfIndexes data rid).run w =
      (.success, w.setIndexes (w.table.indexes.map (·.insertEntry data rid))) := by
  rw [insertEntryOfIndexes, run_bind_eq (show (MonadState.get : Exec World).run w = (w, w) from rfl),
    insertEntries_run_of_nil _ hnil, foldl_modify_range]

/-- The loop of `delete_entry_of_indexes` over positions `ks`, each holding an index of
`cur` that has the entry, the others already erased. -/
theorem deleteEntries_run_of_mem {data : Bytes} {rid : RID} {b : Bool} {cur : List Index}
    (hmem : ∀ i ∈ cur, (i.key data, rid) ∈ i.entries) :
    ∀ {ks : List Nat} {w : World}, w.faults = [] → ks.Nodup → (∀ k ∈ ks, k < cur.length) →
      (∀ j, w.table.indexes[j]? = if j ∈ ks then cur[j]? else cur[j]?.map (·.eraseEntry data rid)) →
      (deleteEntries data rid b ks .success).run w =
        (.success, w.setIndexes (cur.map (·.eraseEntry data rid)))
  | [], w, _, _, _, hix => by
    have : w.table.indexes = cur.map (·.eraseEntry data rid) :=
      List.ext_getElem? fun j => by simpa using hix j
    rw [← this]
    rfl
  | k :: ks, w, hnil, nd, hk, hix => by
    obtain ⟨i, hi⟩ : ∃ i, cur[k]? = some i :=
      ⟨_, List.getElem?_eq_getElem (hk k (List.mem_cons_self _ _))⟩
    have hcur : w.table.indexes[k]? = some i := by simp [hix k, hi]
    rw [deleteEntries, run_bind_eq (indexDeleteEntry_run_of_mem hnil hcur
      (hmem i (List.getElem?_mem hi)))]
    simp only [ne_eq, not_true_eq_false, false_and, if_false]
    refine deleteEntries_run_of_mem hmem hnil (List.nodup_cons.1 nd).2
      (fun k' hk' => hk k' (List.mem_cons_of_mem _ hk')) fun j => ?_
    rw [World.setIndexes_indexes, List.getElem?_set]
    by_cases hj : k = j
    · subst hj
      simp [(List.nodup_cons.1 nd).1, hi, (List.getElem?_eq_some_iff.1 hcur).1]
    · simp [hj, hix j, Ne.symm hj]

/-- With every call succeeding and every index holding the record's entry,
`delete_entry_of_indexes` erases it from each. -/
theorem deleteEntryOfIndexes_run_of_mem {w : World} (hnil : w.faults = []) {data : Bytes}
    {rid : RID} (b : Bool) (hmem : ∀ i ∈ w.table.indexes, (i.key data, rid) ∈ i.entries) :
    (deleteEntryOfIndexes data rid b).run w =
      (.success, w.setIndexes (w.table.indexes.map (·.eraseEntry data rid))) := by
  rw [deleteEntryOfIndexes, run_bind_eq (show (MonadState.get : Exec World).run w = (w, w) from rfl)]
  refine deleteEntries_run_of_mem hmem hnil (List.nodup_range _)
    (fun k hk => List.mem_range.1 hk) fun j => ?_
  by_cases hj : j < w.table.indexes.length
  · simp [hj]
  · simp [hj, List.getElem?_eq_none (Nat.le_of_not_lt hj)]

/-! ### The table's operations -/

section Operations

variable {w : World} (hnil : w.faults = [])
include hnil

/-- With every call succeeding, `insert_record` stores the record at the first free slot,
logs it, and puts it into every index. -/
theorem insertRecord_run_of_nil (trx : Option Trx) (data : Bytes) :
    (insertRecord trx data).run w = ((.success, w.table.recordHandler.freeSlot),
      ⟨{ w.table with
        recordHandler := (w.table.recordHandler.insert (readBytes (stampTrx trx data)
          (w.table.tableMeta.recordSize + w.table.tableMeta.fieldNum))).2
        indexes := w.table.indexes.map (·.insertEntry (stampTrx trx data)
          w.table.recordHandler.freeSlot) },
        w.log ++ insertLog trx w.table.recordHandler.freeSlot, w.faults⟩) := by
  set inserted := w.table.recordHandler.insert (readBytes (stampTrx trx data)
    (w.table.tableMeta.recordSize + w.table.tableMeta.fieldNum))
  simp only [insertRecord, StateT.run_bind, StateT.run_get, Id.pure_eq, Id.bind_eq]
  rw [rhInsertRecord_run, if_pos (w.next_of_faults_nil hnil), w.pop_of_faults_nil hnil]
  simp only [ne_eq, not_true_eq_false, if_false]
  rw [run_bind_eq (@logInsert_run_of_nil (w.setRecordHandler inserted.2) hnil trx inserted.1)]
  simp only [ne_eq, not_true_eq_false, if_false]
  rw [run_bind_eq (@insertEntryOfIndexes_run_of_nil ((w.setRecordHandler inserted.2).setLog
    ((w.setRecordHandler inserted.2).log ++ insertLog trx inserted.1)) hnil _ _)]
  rfl

/-- With every call succeeding, `insert_record(trx, values)` of a row `make_record` builds
inserts that record. -/
theorem insertRecordValues_run_of_makeRecord {trx : Option Trx} {values : List Value} {data : Bytes}
    (built : makeRecord w.table.tableMeta values = .ok data) :
    (insertRecordValues trx values).run w = (.success, ((insertRecord trx data).run w).2) := by
  have nonempty : values.length ≠ 0 := by
    have arity := (makeRecord_eq_ok built).1
    have := w.table.tableMeta.has_user_field
    unfold TableMeta.fieldNum at arity
    omega
  rw [insertRecordValues, if_neg nonempty,
    run_bind_eq (show (MonadState.get : Exec World).run w = (w, w) from rfl),
    built, run_bind_eq (insertRecord_run_of_nil hnil trx data), insertRecord_run_of_nil hnil trx data]
  rfl

variable {r : Record} {h : RecordFileHandler}

/-- `delete_record(nullptr, record)` of a record every index holds: out of every index,
then out of the heap. -/
theorem deleteRecord_run_of_mem (hmem : ∀ i ∈ w.table.indexes, (i.key r.data, r.rid) ∈ i.entries)
    (hd : w.table.recordHandler.delete r.rid = some h) :
    (deleteRecord none r).run w =
      (.success, (w.setIndexes (w.table.indexes.map (·.eraseEntry r.data r.rid))).setRecordHandler h) := by
  simp only [deleteRecord]
  rw [run_bind_eq (deleteEntryOfIndexes_run_of_mem hnil false hmem)]
  simp only [ne_eq, not_true_eq_false, if_false]
  exact rhDeleteRecord_run_of_delete (by exact hnil) hd

theorem commitDelete_run_of_mem (hg : w.table.recordHandler.get r.rid = some r)
    (hmem : ∀ i ∈ w.table.indexes, (i.key r.data, r.rid) ∈ i.entries)
    (hd : w.table.recordHandler.delete r.rid = some h) :
    (commitDelete r.rid).run w =
      (.success, (w.setIndexes (w.table.indexes.map (·.eraseEntry r.data r.rid))).setRecordHandler h) := by
  rw [commitDelete, run_bind_eq (rhGetRecord_run_of_get hnil hg)]
  simp only [ne_eq, not_true_eq_false, if_false]
  rw [run_bind_eq (deleteEntryOfIndexes_run_of_mem hnil false hmem)]
  exact rhDeleteRecord_run_of_delete (by exact hnil) hd

theorem rollbackInsert_run_of_mem (hg : w.table.recordHandler.get r.rid = some r)
    (hmem : ∀ i ∈ w.table.indexes, (i.key r.data, r.rid) ∈ i.entries)
    (hd : w.table.recordHandler.delete r.rid = some h) :
    (rollbackInsert r.rid).run w =
      (.success, (w.setIndexes (w.table.indexes.map (·.eraseEntry r.data r.rid))).setRecordHandler h) := by
  rw [rollbackInsert, run_bind_eq (rhGetRecord_run_of_get hnil hg)]
  simp only [ne_eq, not_true_eq_false, if_false]
  rw [run_bind_eq (deleteEntryOfIndexes_run_of_mem hnil false hmem)]
  simp only [ne_eq, not_true_eq_false, if_false]
  exact rhDeleteRecord_run_of_delete (by exact hnil) hd

/-- A callback on a rid no record holds returns `get_record`'s error and changes nothing. -/
theorem commitDelete_run_of_none {rid : RID} (hg : w.table.recordHandler.get rid = none) :
    (commitDelete rid).run w = (.genericError, w) := by
  rw [commitDelete, run_bind_eq (rhGetRecord_run_of_none hnil hg)]
  rfl

theorem rollbackInsert_run_of_none {rid : RID} (hg : w.table.recordHandler.get rid = none) :
    (rollbackInsert rid).run w = (.genericError, w) := by
  rw [rollbackInsert, run_bind_eq (rhGetRecord_run_of_none hnil hg)]
  rfl

theorem commitInsert_run_of_none {rid : RID} (hg : w.table.recordHandler.get rid = none) :
    (commitInsert rid).run w = (.genericError, w) := by
  rw [commitInsert, run_bind_eq (rhGetRecord_run_of_none hnil hg)]
  rfl

theorem rollbackDelete_run_of_none {rid : RID} (hg : w.table.recordHandler.get rid = none) :
    (rollbackDelete rid).run w = (.genericError, w) := by
  rw [rollbackDelete, run_bind_eq (rhGetRecord_run_of_none hnil hg)]
  rfl

theorem commitUpdate_run_of_none {rid : RID} (newRecordData : Bytes)
    (hg : w.table.recordHandler.get rid = none) :
    (commitUpdate rid newRecordData).run w = (.genericError, w) := by
  rw [commitUpdate, run_bind_eq (rhGetRecord_run_of_none hnil hg)]
  rfl

/-- `commit_insert` clears the owner of the record in place. -/
theorem commitInsert_run_of_get (hg : w.table.recordHandler.get r.rid = some r)
    (hu : w.table.recordHandler.update ⟨r.rid, clearOwner r.data⟩ = some h) :
    (commitInsert r.rid).run w = (.success, w.setRecordHandler h) := by
  rw [commitInsert, run_bind_eq (rhGetRecord_run_of_get hnil hg)]
  exact trxRewrite_run_of_update hnil hu

/-- `rollback_delete` clears the deleted flag of the record in place. -/
theorem rollbackDelete_run_of_get (hg : w.table.recordHandler.get r.rid = some r)
    (hu : w.table.recordHandler.update ⟨r.rid, unmarkDeleted r.data⟩ = some h) :
    (rollbackDelete r.rid).run w = (.success, w.setRecordHandler h) := by
  rw [rollbackDelete, run_bind_eq (rhGetRecord_run_of_get hnil hg)]
  exact trxRewrite_run_of_update hnil hu

/-- `commit_update` of a record every index holds: out of every index, the new image
copied over it, back into every index. -/
theorem commitUpdate_run_of_mem {newRecordData : Bytes}
    (hg : w.table.recordHandler.get r.rid = some r)
    (hmem : ∀ i ∈ w.table.indexes, (i.key r.data, r.rid) ∈ i.entries)
    (hu : w.table.recordHandler.update ⟨r.rid, strcpy r.data newRecordData⟩ = some h) :
    (commitUpdate r.rid newRecordData).run w = (.success,
      (w.setRecordHandler h).setIndexes ((w.table.indexes.map (·.eraseEntry r.data r.rid)).map
        (·.insertEntry (strcpy r.data newRecordData) r.rid))) := by
  rw [commitUpdate, run_bind_eq (rhGetRecord_run_of_get hnil hg)]
  simp only [ne_eq, not_true_eq_false, if_false]
  rw [run_bind_eq (deleteEntryOfIndexes_run_of_mem hnil false hmem)]
  simp only [ne_eq, not_true_eq_false, if_false]
  rw [run_bind_eq (@rhUpdateRecord_run_of_update
    (w.setIndexes (w.table.indexes.map (·.eraseEntry r.data r.rid))) hnil _ _ hu)]
  simp only [ne_eq, not_true_eq_false, if_false]
  rw [run_bind_eq (@insertEntryOfIndexes_run_of_nil
    ((w.setIndexes (w.table.indexes.map (·.eraseEntry r.data r.rid))).setRecordHandler h) hnil _ _)]
  rfl

end Operations

/-! ### Scans -/

/-- With every call succeeding and no index serving the filter, a scan with no limit runs
the heap loop over the records that pass the filter, from the world it starts in. -/
theorem scanRecord_run_of_heap {σ : Type} (cmp : KeyOrder) (trx : Option Trx)
    (reader : Record → σ → Exec (RC × σ)) {filter : Option ConditionFilter} {w : World}
    (hnil : w.faults = []) (noIndex : findIndexForScan cmp w.table filter = none) (ctx : σ) :
    (scanRecord cmp trx reader filter (-1) ctx).run w =
      (scanHeap trx reader intMax (w.table.recordHandler.records.filter fun r =>
        passes cmp filter r.data) 0 ctx).run w := by
  simp only [scanRecord, show (-1 : Int) ≠ 0 by decide, if_false, show (-1 : Int) < 0 by decide,
    if_true, StateT.run_bind, StateT.run_get, Id.pure_eq, Id.bind_eq, noIndex,
    call_run_of_nil hnil, StateT.run_pure, ne_eq, not_true_eq_false]

section Fold

variable {σ : Type} (trx : Option Trx) {reader : Record → σ → Exec (RC × σ)} {w : World}
  {f : Record → σ → σ} (pure_reader : ∀ r ctx, (reader r ctx).run w = ((.success, f r ctx), w))
include pure_reader

/-- A reader that succeeds and leaves the world alone makes the heap loop a fold over the
visible records, up to the limit. -/
theorem scanHeap_fold (limit : Nat) : ∀ (rs : List Record) (count : Nat) (ctx : σ),
    (scanHeap trx reader limit rs count ctx).run w =
      ((.success, ((rs.filter fun r => visibleTo trx r.data).take (limit - count)).foldl
        (fun c r => f r c) ctx), w)
  | [], _, _ => by simp [scanHeap]
  | r :: rs, count, ctx => by
    unfold scanHeap
    by_cases hc : count < limit
    · cases hv : visibleTo trx r.data
      · simp only [hc, hv, if_true, Bool.false_eq_true, if_false, scanHeap_fold, List.filter_cons]
      · simp only [hc, hv, if_true, run_bind_eq (pure_reader r ctx), ne_eq, not_true_eq_false,
          if_false, scanHeap_fold, List.filter_cons]
        rw [show limit - count = limit - (count + 1) + 1 by omega, List.take_succ_cons,
          List.foldl_cons]
    · simp [hc, show limit - count = 0 by omega]

/-- With every call succeeding and no index serving the filter, a scan with no limit of a
heap that fits `INT_MAX` folds the reader over every record that passes the filter and
that the transaction can see. -/
theorem scanRecord_run_of_fold (cmp : KeyOrder) {filter : Option ConditionFilter}
    (hnil : w.faults = []) (noIndex : findIndexForScan cmp w.table filter = none)
    (fits : w.table.recordHandler.records.length ≤ intMax) (ctx : σ) :
    (scanRecord cmp trx reader filter (-1) ctx).run w =
      ((.success, (w.table.recordHandler.records.filter fun r =>
        passes cmp filter r.data && visibleTo trx r.data).foldl (fun c r => f r c) ctx), w) := by
  rw [scanRecord_run_of_heap cmp trx reader hnil noIndex, scanHeap_fold trx pure_reader, Nat.sub_zero,
    List.take_of_length_le, List.filter_filter]
  · simp only [Bool.and_comm]
  · exact (List.length_filter_le _ _).trans ((List.length_filter_le _ _).trans fits)

/-- The same for the index loop over rids that each name a record: it fetches the first
`limit - count` rids, counting each, and folds the reader over the records among them that
are visible and pass the filter. -/
theorem scanIndex_fold (cmp : KeyOrder) (hnil : w.faults = []) (filter : Option ConditionFilter)
    (limit : Nat) : ∀ (rids : List RID) (count : Nat) (ctx : σ),
    (∀ rid ∈ rids, (w.table.recordHandler.get rid).isSome) →
    (scanIndex cmp trx reader filter limit rids count ctx).run w =
      ((.success, (((rids.take (limit - count)).filterMap w.table.recordHandler.get).filter fun r =>
        visibleTo trx r.data && passes cmp filter r.data).foldl (fun c r => f r c) ctx), w)
  | [], _, _, _ => by simp [scanIndex]
  | rid :: rids, count, ctx, found => by
    obtain ⟨r, hg⟩ := Option.isSome_iff_exists.1 (found rid (List.mem_cons_self _ _))
    have found' := fun rid' h' => found rid' (List.mem_cons_of_mem _ h')
    unfold scanIndex
    by_cases hc : count < limit
    · rw [if_pos hc, run_bind_eq (rhGetRecord_run_of_get hnil hg),
        show limit - count = limit - (count + 1) + 1 by omega, List.take_succ_cons]
      -- the record is handed over or not; either way the rest is the loop on the next rid
      cases hk : visibleTo trx r.data && passes cmp filter r.data <;>
        simp only [ne_eq, not_true_eq_false, if_false, hk, Bool.false_eq_true, if_true,
          run_bind_eq (pure_reader r ctx), List.filterMap_cons, hg, List.filter_cons,
          List.foldl_cons] <;>
        exact scanIndex_fold cmp hnil filter limit rids _ _ found'
    · simp [hc, show limit - count = 0 by omega]

end Fold

section IndexLoop

variable {σ : Type} (cmp : KeyOrder) (trx : Option Trx) {reader : Record → σ → Exec (RC × σ)}
  {I : World → Prop} (clean : ∀ w, I w → w.faults = [])
  (keep : ∀ r ctx w, I w → Current w r → visibleTo trx r.data = true →
    I ((reader r ctx).run w).2 ∧ ∀ rid, rid ≠ r.rid →
      ((reader r ctx).run w).2.table.recordHandler.get rid = w.table.recordHandler.get rid)
include clean keep

/-- With every call succeeding and a reader that keeps `I` and leaves the records at other
addresses alone, the index loop over distinct rids that each name a record runs as the heap
loop over the records they name that pass the filter: a record is fetched before any
reader call has touched it. -/
theorem scanIndex_run_eq_scanHeap (filter : Option ConditionFilter) (limit : Nat) :
    ∀ (rids : List RID) (count count' : Nat) (ctx : σ) (w : World), I w → rids.Nodup →
      (∀ rid ∈ rids, (w.table.recordHandler.get rid).isSome) →
      count + rids.length ≤ limit → count' + rids.length ≤ limit →
      (scanIndex cmp trx reader filter limit rids count ctx).run w =
        (scanHeap trx reader limit ((rids.filterMap w.table.recordHandler.get).filter fun r =>
          passes cmp filter r.data) count' ctx).run w
  | [], _, _, _, _, _, _, _, _, _ => by simp [scanIndex, scanHeap]
  | rid :: rids, count, count', ctx, w, hI, nd, found, le, le' => by
    obtain ⟨r, hg⟩ := Option.isSome_iff_exists.1 (found rid (List.mem_cons_self _ _))
    obtain ⟨fresh, nd'⟩ := List.nodup_cons.1 nd
    have found' := fun rid' h' => found rid' (List.mem_cons_of_mem _ h')
    simp only [List.length_cons] at le le'
    unfold scanIndex
    rw [if_pos (by omega), run_bind_eq (rhGetRecord_run_of_get (clean w hI) hg)]
    simp only [ne_eq, not_true_eq_false, if_false, List.filterMap_cons, hg, List.filter_cons]
    cases hp : passes cmp filter r.data
    · simp only [Bool.and_false, Bool.false_eq_true, if_false]
      exact scanIndex_run_eq_scanHeap filter limit rids _ _ ctx w hI nd' found' (by omega) (by omega)
    cases hv : visibleTo trx r.data
    · simp only [Bool.false_and, Bool.false_eq_true, if_false, if_true, scanHeap, show count' < limit by omega, hv]
      exact scanIndex_run_eq_scanHeap filter limit rids _ _ ctx w hI nd' found' (by omega) (by omega)
    have cur : Current w r := by rwa [Current, (RecordFileHandler.get_eq_some_iff.1 hg).2]
    obtain ⟨hI', frame⟩ := keep r ctx w hI cur hv
    have rid_eq : r.rid = rid := (RecordFileHandler.get_eq_some_iff.1 hg).2
    -- the reader leaves the records the remaining rids name where they were
    have same : rids.filterMap ((reader r ctx).run w).2.table.recordHandler.get =
        rids.filterMap w.table.recordHandler.get :=
      List.filterMap_congr fun rid' h' => frame rid' fun e => fresh (rid_eq ▸ e ▸ h')
    simp only [Bool.and_true, if_true, scanHeap, show count' < limit by omega, hv]
    rcases hr : (reader r ctx).run w with ⟨⟨rc, ctx'⟩, w₁⟩
    rw [hr] at hI' same frame
    rw [run_bind_eq hr, run_bind_eq hr]
    dsimp only
    split
    · rfl
    · rw [← same]
      exact scanIndex_run_eq_scanHeap filter limit rids _ _ ctx' w₁ hI' nd'
        (fun rid' h' => by rw [frame rid' fun e => fresh (rid_eq ▸ e ▸ h')]; exact found' rid' h')
        (by omega) (by omega)

end IndexLoop

/-! ### `create_index` -/

theorem inserterReader_run_of_nil {w : World} (hnil : w.faults = []) (r : Record) (i : Index) :
    (inserterReader r i).run w = ((.success, i.insertEntry r.data r.rid), w) :=
  call_run_of_nil hnil _ _

/-- The index `create_index` builds over a heap: one entry per record, in scan order. -/
def Index.build (indexMeta : IndexMeta) (field : FieldMeta) (records : List Record) : Index :=
  records.foldl (fun i r => i.insertEntry r.data r.rid) ⟨indexMeta, field, []⟩

/-- With every call succeeding, `create_index` without a transaction on a heap that fits
`INT_MAX` either fails a check and changes nothing, or builds the index over every record,
adds it to the indexes and its meta to the table's meta. -/
theorem createIndex_run_of_nil (cmp : KeyOrder) {w : World} (hnil : w.faults = [])
    (indexName attributeName : String) (fits : w.table.recordHandler.records.length ≤ intMax) :
    ((createIndex cmp none indexName attributeName).run w).2 = w ∨
      ∃ field, w.table.tableMeta.index indexName = none ∧
        w.table.tableMeta.fieldByName attributeName = some field ∧
        ((createIndex cmp none indexName attributeName).run w).2 = ⟨{ w.table with
          tableMeta := w.table.tableMeta.addIndex ⟨indexName, field.name⟩
          indexes := w.table.indexes ++ [Index.build ⟨indexName, field.name⟩ field
            w.table.recordHandler.records] }, w.log, w.faults⟩ := by
  unfold createIndex
  by_cases blank : (isBlank indexName || isBlank attributeName) = true
  · rw [if_pos blank]
    exact .inl rfl
  rw [if_neg blank, run_bind_eq (show (MonadState.get : Exec World).run w = (w, w) from rfl)]
  by_cases taken : ((w.table.tableMeta.index indexName).isSome ||
      (w.table.tableMeta.findIndexByField attributeName).isSome) = true
  · rw [if_pos taken]
    exact .inl rfl
  rw [if_neg taken]
  cases hfield : w.table.tableMeta.fieldByName attributeName with
  | none => exact .inl rfl
  | some field =>
  refine .inr ⟨field, by cases h : w.table.tableMeta.index indexName <;> simp_all, rfl, ?_⟩
  rw [run_bind_eq (call_run_of_nil hnil id (pure .success))]
  simp only [StateT.run_pure, ne_eq, not_true_eq_false, if_false]
  rw [run_bind_eq (scanRecord_run_of_fold none (inserterReader_run_of_nil hnil) cmp hnil
    (show findIndexForScan cmp w.table none = none from rfl) fits _)]
  simp [World.next, World.pop, hnil, World.setIndexes, passes, visibleTo, Index.build]

/-! ### The per-record `update_record` -/

section Update

variable {w : World} (hnil : w.faults = []) {record : Record} {attributeName : String}
  {value : Value}

/-- An attribute no field has: nothing happens. -/
theorem updateRecordOne_run_of_missing
    (hi : w.table.tableMeta.findFieldIndexByName attributeName = none) :
    (updateRecordOne record attributeName value).run w = (.schemaFieldNotExist, w) := by
  rw [updateRecordOne, run_bind_eq (show (MonadState.get : Exec World).run w = (w, w) from rfl)]
  dsimp only
  rw [hi]
  rfl

include hnil

variable {i : Nat} {field : FieldMeta} {h : RecordFileHandler}
  (hi : w.table.tableMeta.findFieldIndexByName attributeName = some i)
  (hf : w.table.tableMeta.field i = some field) (legal : isLegal value field = .success)
  (hu : w.table.recordHandler.update
    ⟨record.rid, updateField w.table.tableMeta record.data i field value⟩ = some h)
include hi hf legal hu

/-- The update of a field no index is found for by its name: the bytes are written and the
record stored. -/
theorem updateRecordOne_run_of_unindexed (none_found : findIndex w.table attributeName = none) :
    (updateRecordOne record attributeName value).run w = (.success, w.setRecordHandler h) := by
  rw [updateRecordOne, run_bind_eq (show (MonadState.get : Exec World).run w = (w, w) from rfl)]
  simp only [hi, hf, none_found, StateT.run_bind, StateT.run_pure, Id.pure_eq, Id.bind_eq, ne_eq,
    not_true_eq_false, if_false, legal]
  rw [rhUpdateRecord_run_of_update hnil hu]
  rfl

/-- The update of a field whose index is found by name: the entry leaves the index, the
bytes are written and the record stored, the entry of the new bytes goes in. -/
theorem updateRecordOne_run_of_indexed {k : Nat} {ix : Index}
    (found : findIndex w.table attributeName = some k) (hk : w.table.indexes[k]? = some ix)
    (hmem : (ix.key record.data, record.rid) ∈ ix.entries) :
    (updateRecordOne record attributeName value).run w = (.success,
      (w.setRecordHandler h).setIndexes (w.table.indexes.set k
        ((ix.eraseEntry record.data record.rid).insertEntry
          (updateField w.table.tableMeta record.data i field value) record.rid))) := by
  rw [updateRecordOne, run_bind_eq (show (MonadState.get : Exec World).run w = (w, w) from rfl)]
  simp only [hi, hf, found, StateT.run_bind, indexDeleteEntry_run_of_mem hnil hk hmem,
    Id.bind_eq, ne_eq, not_true_eq_false, if_false, legal]
  rw [@rhUpdateRecord_run_of_update (w.setIndexes (w.table.indexes.set k
    (ix.eraseEntry record.data record.rid))) hnil _ _ hu]
  simp only [Id.bind_eq, ne_eq, not_true_eq_false, if_false, StateT.run_bind,
    @indexInsertEntry_run_of_nil ((w.setIndexes (w.table.indexes.set k
      (ix.eraseEntry record.data record.rid))).setRecordHandler h) hnil, StateT.run_pure,
    Id.pure_eq]
  simp [modify_set_self, World.setIndexes, World.setRecordHandler]

end Update

end Miniob
