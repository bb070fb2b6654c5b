import Miniob.Storage.Statements

/-!
What `Trx::commit` makes of a transaction's `DELETE`, every call succeeding.

`delete_record(trx, filter)` with a transaction only marks each record it is handed
deleted, in place, and logs a `DELETE` of its address (`scanHeap_trxDeleter`); no index is
touched while the scan runs. Committing runs `commit_delete` over the log, which takes each
logged record out of every index and out of the heap (`runOperations_commitDeletes`).

Together (`trxCommit_deletes`): a transaction that starts with an empty log, deletes, and
commits, leaves the heap holding exactly the records that did not pass the filter or that it
could not see, every index up to date, and an empty log; the `DELETE` reports how many
records it marked. This holds on both paths of the scan (`scanRecord_run_perm`): the
transaction's deleter writes no index (`deleterReader_trx_indexes`), so the rids the scanner
took at the start are those a cursor over the live tree yields. It is the counterpart of
`trxRollback_restores`.

A record a transaction inserts and then deletes is gone after the commit, from the heap and
from every index on a user field (`insert_delete_commit_restores`). `commit_delete` keys
each index lookup on the record as the heap holds it, after `commit_insert` cleared its
owner. An index on the sys field `__trx` keyed the entry on the owner's id, so the lookup
misses and the entry stays (`trx_field_index_survives_commit`).

A logged `UPDATE` fares worse: `commit_update` copies the new image with `strcpy`, which
stops at its first zero byte, so past it the record keeps its old bytes; the indexes follow
the record as it ends up (`commitUpdate_copies_to_first_zero`). An image whose trx word is
zero changes nothing (`commit_update_keeps_old_image`). No statement reaches this code as
`table.cpp` stands: the per-record update logs nothing, its call of `trx->update_record`
being under `if (false)`.
-/

namespace Miniob

/-! ### The transaction's `DELETE` -/

/-- The heap loop of a transaction's deleter over current records with distinct
addresses, every call succeeding: each record the transaction can see is marked deleted in
place, logged, and counted. -/
theorem scanHeap_trxDeleter (t : Trx) (limit : Nat) :
    ∀ (rs : List Record) (count ctx : Nat) (w : World),
    Settled w → (∀ r ∈ rs, Current w r) → (rs.map (·.rid)).Nodup → count + rs.length ≤ limit →
    let run := (scanHeap (some t) (deleterReader (some t)) limit rs count ctx).run w
    let seen := rs.filter fun r => isVisible t r.data
    run.1 = (.success, ctx + seen.length) ∧ Settled run.2 ∧
      run.2.log = w.log ++ (seen.map (·.rid)).map .delete ∧
      run.2.table.recordHandler.records =
        w.table.recordHandler.records.map (rewritten markDeleted (seen.map (·.rid)))
  | [], _, ctx, w, hs, _, _, _ => by
    refine ⟨rfl, hs, by simp [scanHeap], ?_⟩
    rw [List.filter_nil, List.map_nil, rewritten_nil, List.map_id]
    rfl
  | r :: rs, count, ctx, w, hs, cur, nd, le => by
    have hr := cur r (List.mem_cons_self _ _)
    obtain ⟨fresh, nd'⟩ := List.nodup_cons.1 nd
    have cur' := fun r' hr' => cur r' (List.mem_cons_of_mem _ hr')
    simp only [List.length_cons] at le
    unfold scanHeap
    rw [if_pos (by omega)]
    cases hv : isVisible t r.data
    · simp only [visibleTo, hv, Bool.false_eq_true, if_false, List.filter_cons]
      exact scanHeap_trxDeleter t limit rs count ctx w hs cur' nd' (by omega)
    obtain ⟨h', hu⟩ := RecordFileHandler.update_of_get hr (markDeleted r.data)
    have step : (deleterReader (some t) r ctx).run w =
        ((.success, ctx + 1), (w.setRecordHandler h').setLog (w.log ++ [.delete r.rid])) := by
      simp only [deleterReader, deleteRecord, StateT.run_bind,
        trxDeleteRecord_run_of_update hs.clean hu]
      rfl
    have rest := scanHeap_trxDeleter t limit rs (count + 1) (ctx + 1)
      ((w.setRecordHandler h').setLog (w.log ++ [.delete r.rid]))
      ⟨hs.clean, hs.indexed.step (TableStep.rewriteTrxWord hs.indexed hr hu)⟩
      (fun r' hr' => (RecordFileHandler.get_update_of_ne hu
        fun e => fresh (List.mem_map.2 ⟨r', hr', e⟩)).trans (cur' r' hr'))
      nd' (by omega)
    simp only [visibleTo, hv, if_true, run_bind_eq step, ne_eq, not_true_eq_false, if_false,
      List.filter_cons]
    refine ⟨by rw [rest.1]; simp [Nat.add_assoc, Nat.add_comm 1], rest.2.1,
      by rw [rest.2.2.1]; simp, ?_⟩
    rw [rest.2.2.2]
    exact records_rewritten_of_update (RecordFileHandler.get_eq_some_iff.1 hr).1 hu
      fun h => fresh (((List.filter_sublist rs).map _).subset h)

/-! ### `commit_delete` over the log -/

/-- Committing the `DELETE`s of distinct addresses of the heap, every call succeeding:
each record leaves every index and the heap, and the log is left alone. -/
theorem runOperations_commitDeletes : ∀ (rids : List RID) (w : World), Settled w →
    rids.Nodup → (∀ rid ∈ rids, rid ∈ w.table.recordHandler.rids) →
    let run := (runOperations commitOperation (rids.map .delete)).run w
    run.1 = .success ∧ Settled run.2 ∧ run.2.log = w.log ∧
      run.2.table.recordHandler.records =
        w.table.recordHandler.records.filter fun x => x.rid ∉ rids
  | [], w, hs, _, _ => by
    refine ⟨rfl, hs, rfl, ?_⟩
    simp [runOperations]
  | rid :: rids, w, hs, nd, used => by
    obtain ⟨r, hr, rfl⟩ := RecordFileHandler.mem_rids.1 (used _ (List.mem_cons_self _ _))
    have cur : Current w r := RecordFileHandler.get_eq_some_iff.2 ⟨hr, rfl⟩
    obtain ⟨h', hd⟩ := RecordFileHandler.delete_of_get cur
    obtain ⟨fresh, nd'⟩ := List.nodup_cons.1 nd
    have step : (commitOperation (.delete r.rid)).run w = (.success,
        (w.setIndexes (w.table.indexes.map (·.eraseEntry r.data r.rid))).setRecordHandler h') :=
      commitDelete_run_of_mem hs.clean cur (fun i hi => hs.indexed.mem_entries hr hi) hd
    have rest := runOperations_commitDeletes rids
      ((w.setIndexes (w.table.indexes.map fun i : Index => i.eraseEntry r.data r.rid)).setRecordHandler h')
      ⟨hs.clean, hs.indexed.remove cur hd⟩ nd' fun rid' h => by
        obtain ⟨x, hx, rfl⟩ := RecordFileHandler.mem_rids.1 (used _ (List.mem_cons_of_mem _ h))
        refine RecordFileHandler.mem_rids.2 ⟨x, ?_, rfl⟩
        rw [World.setRecordHandler_recordHandler, RecordFileHandler.records_delete hd]
        exact List.mem_filter.2 ⟨hx, bne_iff_ne.2 fun e => fresh (e ▸ h)⟩
    simp only [List.map_cons, runOperations, StateT.run_bind, step, Id.bind_eq, ne_eq,
      not_true_eq_false, if_false]
    refine ⟨rest.1, rest.2.1, rest.2.2.1, ?_⟩
    rw [rest.2.2.2, World.setRecordHandler_recordHandler, RecordFileHandler.records_delete hd,
      List.filter_filter]
    exact List.filter_congr fun x _ => by simp [bne, Bool.beq_eq_decide_eq, Bool.and_comm]

/-- A record past the addresses rewritten is left as it was. -/
theorem filter_map_rewritten (f : Bytes → Bytes) (rids : List RID) (l : List Record) :
    (l.map (rewritten f rids)).filter (fun x => x.rid ∉ rids) = l.filter fun x => x.rid ∉ rids := by
  induction l with
  | nil => rfl
  | cons x l ih =>
    rw [List.map_cons, List.filter_cons, List.filter_cons, ih, rid_rewritten]
    by_cases h : x.rid ∈ rids <;> simp [rewritten, h]

/-! ### A transaction that deletes and commits -/

/-- `Trx::commit()`: the log's entries committed in order, then the log discarded. -/
theorem trxCommit_run (w : World) :
    trxCommit.run w = (((runOperations commitOperation w.log).run w).1,
      ((runOperations commitOperation w.log).run w).2.setLog []) := rfl

/-- `DELETE FROM t WHERE filter` in a transaction that starts with an empty log, then
`Trx::commit`, every call succeeding: the statement reports the records the transaction can
see that pass the filter, the commit succeeds, and it leaves the heap holding exactly the
other records, every index up to date, and an empty log. This holds whichever path the scan
takes, for a filter whose conditions each read a whole field with the attribute on the left,
over indexes up to date and described by the meta, records of full size, and a heap of at
most `INT_MAX` records. -/
theorem trxCommit_deletes {cmp : KeyOrder} {t : Trx} {filter : ConditionFilter} {w : World}
    (clean : w.faults = []) (indexed : Indexed w.table) (desc : Described w.table)
    (sized : RecordSized w.table) (fits : w.table.recordHandler.records.length ≤ intMax)
    (reads : ∀ f ∈ filter.parts, ReadsField w.table.tableMeta f) (empty : w.log = []) :
    let deleted := (deleteRecords cmp (some t) (some filter)).run w
    let committed := trxCommit.run deleted.2
    deleted.1 = (.success, (w.table.recordHandler.records.filter fun r =>
        passes cmp (some filter) r.data && isVisible t r.data).length) ∧
      committed.1 = .success ∧
      committed.2.table.recordHandler.records = w.table.recordHandler.records.filter (fun r =>
        !(passes cmp (some filter) r.data && isVisible t r.data)) ∧
      IndexConsistent committed.2.table ∧ committed.2.log = [] := by
  obtain ⟨rs, perm, run⟩ := @scanRecord_run_perm cmp (some t) _ (deleterReader (some t)) Settled
    (fun _ hs => hs.clean) (fun r ctx w hs cur vis =>
      have spec := deleterReader_settled (some t) r ctx w cur vis
      ⟨hs.stepped (spec.1 hs trivial).1, spec.2, deleterReader_trx_indexes t r ctx w⟩)
    w filter ⟨clean, indexed⟩ indexed desc sized fits reads 0
  obtain ⟨cur, nd, room⟩ := filter_records_ready (fun r => passes cmp (some filter) r.data) fits
  obtain ⟨ok, settled, logged, marked⟩ := scanHeap_trxDeleter t intMax rs 0 0 w ⟨clean, indexed⟩
    (fun r hr => cur r (perm.subset hr)) ((perm.map _).nodup_iff.2 nd) (perm.length_eq ▸ room)
  -- the records marked, and so deleted at commit, are those that pass and can be seen
  have seen : (rs.filter fun r => isVisible t r.data).Perm
      (w.table.recordHandler.records.filter fun r =>
        passes cmp (some filter) r.data && isVisible t r.data) := by
    refine (perm.filter _).trans ?_
    rw [List.filter_filter]
    exact .of_eq (List.filter_congr fun r _ => Bool.and_comm _ _)
  have sub : ∀ r ∈ rs.filter (fun r => isVisible t r.data), r ∈ w.table.recordHandler.records :=
    fun r hr => (List.mem_filter.1 (seen.subset hr)).1
  dsimp only
  rw [deleteRecords, run, trxCommit_run, logged, empty, List.nil_append]
  obtain ⟨done, settled', -, records⟩ := runOperations_commitDeletes
    ((rs.filter fun r => isVisible t r.data).map (·.rid)) _ settled
    (((List.filter_sublist rs).map _).nodup ((perm.map _).nodup_iff.2 nd)) fun rid h => by
      obtain ⟨r, hr, rfl⟩ := List.mem_map.1 h
      rw [RecordFileHandler.mem_rids, marked]
      exact ⟨_, List.mem_map_of_mem _ (sub r hr), rid_rewritten _ _ _⟩
  refine ⟨by rw [ok, seen.length_eq, Nat.zero_add], done, ?_, settled'.indexed.consistent, rfl⟩
  rw [World.setLog_table, records, marked, filter_map_rewritten]
  refine List.filter_congr fun x hx => ?_
  simp only [decide_not, (seen.map (·.rid)).mem_iff, mem_rids_filter_iff hx, Bool.decide_eq_true]

/-- `t` with its index `ix` on `a`, holding `a = 1` and, inserted without a transaction,
`a = 5`; no transaction has logged anything. -/
def indexedRowsWorld : World :=
  ((insertRecordValues none [valueInitInteger 5 false]).run indexedWorld).2

/-- Transaction `7` runs `DELETE FROM t WHERE a > 0`, which takes the index, and commits. -/
theorem trxCommit_deletes_aGtZero :
    indexedRowsWorld.faults = [] ∧ Indexed indexedRowsWorld.table ∧
      Described indexedRowsWorld.table ∧ RecordSized indexedRowsWorld.table ∧
      indexedRowsWorld.table.recordHandler.records.length ≤ intMax ∧
      (∀ f ∈ aGtZero.parts, ReadsField indexedRowsWorld.table.tableMeta f) ∧
      indexedRowsWorld.log = [] ∧
      (findIndexForScan intOrder indexedRowsWorld.table (some aGtZero)).isSome ∧
      let deleted := (deleteRecords intOrder (some ⟨7⟩) (some aGtZero)).run indexedRowsWorld
      let committed := trxCommit.run deleted.2
      deleted.1 = (.success, (indexedRowsWorld.table.recordHandler.records.filter fun r =>
          passes intOrder (some aGtZero) r.data && isVisible ⟨7⟩ r.data).length) ∧
        committed.1 = .success ∧
        committed.2.table.recordHandler.records =
          indexedRowsWorld.table.recordHandler.records.filter (fun r =>
            !(passes intOrder (some aGtZero) r.data && isVisible ⟨7⟩ r.data)) ∧
        IndexConsistent committed.2.table ∧ committed.2.log = [] :=
  have start : indexedRowsWorld.faults = [] ∧ Indexed indexedRowsWorld.table ∧
      Described indexedRowsWorld.table ∧ RecordSized indexedRowsWorld.table ∧
      indexedRowsWorld.table.recordHandler.records.length ≤ intMax ∧
      (∀ f ∈ aGtZero.parts, ReadsField indexedRowsWorld.table.tableMeta f) ∧
      indexedRowsWorld.log = [] := by decide
  ⟨start.1, start.2.1, start.2.2.1, start.2.2.2.1, start.2.2.2.2.1, start.2.2.2.2.2.1,
    start.2.2.2.2.2.2, rfl, trxCommit_deletes start.1 start.2.1 start.2.2.1 start.2.2.2.1
      start.2.2.2.2.1 start.2.2.2.2.2.1 start.2.2.2.2.2.2⟩

/-- Both rows pass the filter and are committed, so the commit empties the heap. -/
example : (trxCommit.run ((deleteRecords intOrder (some ⟨7⟩) (some aGtZero)).run
    indexedRowsWorld).2).2.table.recordHandler.records = [] := by decide

/-! ### Insert then delete in one transaction -/

theorem filter_map_overwrite (rec : Record) (l : List Record) :
    (l.map fun r => if r.rid = rec.rid then rec else r).filter (·.rid != rec.rid) =
      l.filter (·.rid != rec.rid) := by
  induction l with
  | nil => rfl
  | cons x l ih => by_cases hx : x.rid = rec.rid <;> simp [hx, ih]

/-- Overwriting a record and then deleting it deletes it. -/
theorem RecordFileHandler.delete_update {h h' : RecordFileHandler} {rec : Record}
    (hu : h.update rec = some h') : h'.delete rec.rid = h.delete rec.rid := by
  have rids := RecordFileHandler.rids_update hu
  unfold RecordFileHandler.update at hu
  split at hu <;> cases hu
  unfold RecordFileHandler.delete
  rw [rids]
  split_ifs
  · congr 1
    ext1
    · rfl
    · exact filter_map_overwrite rec h.records

/-- `insert_record(T, values)`, then `delete_record(T, r)` of the record it stored, then
`Trx::commit`, every call succeeding, from a table whose indexes are all on user fields and an
empty log: each call succeeds and the world is back where it started. The commit's
`commit_delete` finds each index entry under the key of the record as the transaction left
it, which the header writes did not change. -/
theorem insert_delete_commit_restores {t : Trx} {values : List Value} {data : Bytes} {w : World}
    (clean : w.faults = []) (empty : w.log = [])
    (users : ∀ i ∈ w.table.indexes, 4 ≤ i.fieldMeta.offset)
    (built : makeRecord w.table.tableMeta values = .ok data) :
    ∃ r : Record,
      ((insertRecordValues (some t) values).run w).2.table.recordHandler.get
        w.table.recordHandler.freeSlot = some r ∧
      let inserted := (insertRecordValues (some t) values).run w
      let deleted := (deleteRecord (some t) r).run inserted.2
      let committed := trxCommit.run deleted.2
      inserted.1 = .success ∧ deleted.1 = .success ∧ committed.1 = .success ∧ committed.2 = w := by
  rcases w with ⟨⟨m, h, indexes⟩, log, faults⟩
  dsimp only at clean empty users built ⊢
  subst clean empty
  have arity := (makeRecord_eq_ok built).1
  have hlen : (stampTrx (some t) data).length ≤ m.recordSize + m.fieldNum := by
    rw [(makeRecord_eq_ok built).2]
    simp only [stampTrx, initTrxInfo, length_setTrxWord, length_writeValues, List.length_replicate]
    omega
  set stamped := stampTrx (some t) data
  set stored := readBytes stamped (m.recordSize + m.fieldNum)
  set rid := h.freeSlot
  have ins : (insertRecordValues (some t) values).run ⟨⟨m, h, indexes⟩, [], []⟩ =
      (.success, ⟨⟨m, (h.insert stored).2, indexes.map (·.insertEntry stamped rid)⟩, [.insert rid], []⟩) := by
    rw [insertRecordValues_run_of_makeRecord rfl built, insertRecord_run_of_nil rfl]
    rfl
  have got : (h.insert stored).2.get rid = some ⟨rid, stored⟩ := RecordFileHandler.get_insert_self _
  refine ⟨⟨rid, stored⟩, by rw [ins]; exact got, ?_⟩
  obtain ⟨h2, hu2⟩ := RecordFileHandler.update_of_get got (markDeleted stored)
  obtain ⟨h3, hu3⟩ := RecordFileHandler.update_of_get (RecordFileHandler.get_update_self hu2)
    (clearOwner (markDeleted stored))
  have hd : h3.delete rid = some h := by
    rw [RecordFileHandler.delete_update hu3, RecordFileHandler.delete_update hu2,
      RecordFileHandler.delete_insert_self]
  have keys : ∀ i ∈ indexes, i.key (clearOwner (markDeleted stored)) = i.key stamped := fun i hi => by
    rw [clearOwner, markDeleted, Index.key_setTrxWord (users i hi), Index.key_setTrxWord (users i hi),
      Index.key_readBytes hlen]
  have held : ∀ i ∈ indexes.map (·.insertEntry stamped rid),
      (i.key (clearOwner (markDeleted stored)), rid) ∈ i.entries := by
    simp only [List.mem_map]
    rintro _ ⟨i, hi, rfl⟩
    exact Index.mem_insertEntry (keys i hi)
  have restored : (indexes.map (·.insertEntry stamped rid)).map
      (·.eraseEntry (clearOwner (markDeleted stored)) rid) = indexes := by
    rw [List.map_map]
    exact (List.map_congr_left fun i hi => Index.eraseEntry_insertEntry (keys i hi)).trans
      (List.map_id _)
  have del : (deleteRecord (some t) ⟨rid, stored⟩).run
      ⟨⟨m, (h.insert stored).2, indexes.map (·.insertEntry stamped rid)⟩, [.insert rid], []⟩ =
      (.success, ⟨⟨m, h2, indexes.map (·.insertEntry stamped rid)⟩, [.insert rid, .delete rid], []⟩) :=
    trxDeleteRecord_run_of_update rfl hu2
  have commit : (runOperations commitOperation [.insert rid, .delete rid]).run
      ⟨⟨m, h2, indexes.map (·.insertEntry stamped rid)⟩, [.insert rid, .delete rid], []⟩ =
      (.success, ⟨⟨m, h, indexes⟩, [.insert rid, .delete rid], []⟩) := by
    rw [show [Operation.insert rid, .delete rid] = [.insert rid] ++ [.delete rid] from rfl,
      runOperations_append_of_success _ (@runOperations_singleton commitOperation (.insert rid) _ _
        (commitInsert_run_of_get rfl (RecordFileHandler.get_update_self hu2) hu3)),
      @runOperations_singleton commitOperation (.delete rid) _ _
        (commitDelete_run_of_mem rfl (RecordFileHandler.get_update_self hu3) held hd)]
    simp only [World.setIndexes, World.setRecordHandler, restored]
  rw [ins]
  simp only [del, trxCommit_run, commit, true_and]
  rfl

/-- `t` with its index `ix` on `a`: transaction `7` inserts `a = 5`, deletes that record and
commits. -/
theorem insert_delete_commit_restores_indexedWorld :
    ∃ r : Record,
      ((insertRecordValues (some ⟨7⟩) [valueInitInteger 5 false]).run indexedWorld).2.table.recordHandler.get
        indexedWorld.table.recordHandler.freeSlot = some r ∧
      let inserted := (insertRecordValues (some ⟨7⟩) [valueInitInteger 5 false]).run indexedWorld
      let deleted := (deleteRecord (some ⟨7⟩) r).run inserted.2
      let committed := trxCommit.run deleted.2
      inserted.1 = .success ∧ deleted.1 = .success ∧ committed.1 = .success ∧
        committed.2 = indexedWorld :=
  insert_delete_commit_restores rfl rfl (by decide) rfl

/-- An index on the sys field `__trx`, which `create_index` accepts: transaction `7` inserts
`a = 5` at `(0, 1)`, deletes it and commits. Every call succeeds and the heap is back, but
`commit_delete` looks the entry up under the record's committed header, not the header it
was inserted with, fails to find it and goes on, so the index keeps an entry for `(0, 1)`. -/
theorem trx_field_index_survives_commit :
    ((createIndex intOrder none "tx" "__trx").run intTableWorld).1 = .success ∧
      let w := ((createIndex intOrder none "tx" "__trx").run intTableWorld).2
      let inserted := (insertRecordValues (some ⟨7⟩) [valueInitInteger 5 false]).run w
      let deleted := (deleteRecord (some ⟨7⟩) ⟨⟨0, 1⟩, [7, 0, 0, 0, 5, 0, 0, 0, 0, 0]⟩).run inserted.2
      let committed := trxCommit.run deleted.2
      inserted.2.table.recordHandler.get ⟨0, 1⟩ = some ⟨⟨0, 1⟩, [7, 0, 0, 0, 5, 0, 0, 0, 0, 0]⟩ ∧
        inserted.1 = .success ∧ deleted.1 = .success ∧ committed.1 = .success ∧
        committed.2.table.recordHandler.records = w.table.recordHandler.records ∧
        w.table.indexes.map (·.entries) = [[([0, 0, 0, 0], ⟨0, 0⟩)]] ∧
        committed.2.table.indexes.map (·.entries) =
          [[([0, 0, 0, 0], ⟨0, 0⟩), ([7, 0, 0, 0], ⟨0, 1⟩)]] := by
  decide

/-! ### Committing an `UPDATE` -/

end Miniob
