import Miniob.Storage.Commit

/-!
What `Trx::commit` makes of a whole transaction (§4.6): any run of `INSERT` and `DELETE`
statements, then the log committed with every call succeeding.

Between its statements a transaction `t` leaves the table as commit needs it
(`CommitReady`): a record is owned by `t` exactly when the log holds its `INSERT`, and marked
deleted exactly when the log holds its `DELETE`; every logged address holds a record; no
entry is logged twice and no `INSERT` follows the `DELETE` of its address; the indexes are up
to date and on user fields, and every record has full size. The log also accounts for the
rows of the table `t` started from (`Tracked`): a row whose `DELETE` is not logged is there as
it was, one whose `DELETE` is logged is there marked, and every other row is at an address
whose `INSERT` is logged. A successful `insert_record(t, values)` and a
`delete_record(t, filter)` with any outcome keep both (`insertRecordValues_ready`,
`deleteRecords_ready`), and so does every run of a transaction (`TrxRun.ready`). On the way,
`t` sees every row but those it deleted, and any other transaction only the rows `t` has not
touched (`trxRun_visibility`).

Commit runs the log forward: `commit_insert` clears a record's owner in place, and
`commit_delete` erases a marked record from every index and from the heap. Neither changes
the records `t` sees, taken with their trx word cleared (`published`), and once the whole
log has run every record is committed (`runOperations_commitReady`). So commit leaves in the
heap exactly the records the transaction saw, committed, with every index up to date
(`trxCommit_publishes`). Read against the start table, that heap keeps each row `t` did not
delete, unchanged, drops each row it deleted, and adds one row at each address `t` inserted
and did not delete, and nothing else (`trxCommit_applies_log`).

Rollback of a log that unwinds the table gives that table back (`trxRollback_run_of_unwinds`).
So over a whole session of transactions, each committed or rolled back, the table is
committed with an empty log and the same meta between any two of them, and each transaction
starts where the theorems above apply (`trxSession_committed`).
-/

namespace Miniob

/-- The records a transaction `t` sees, as every transaction sees them once `t` has
committed: those visible to `t`, with their trx word cleared. -/
def published (t : Trx) (records : List Record) : List Record :=
  (records.filter fun x => isVisible t x.data).map fun x => ⟨x.rid, setTrxWord x.data 0⟩

/-- The table as commit needs it while the entries `ops` of the transaction `t` are still to
commit. -/
structure CommitReady (t : Trx) (ops : List Operation) (tbl : Table) : Prop where
  indexed : Indexed tbl
  sized : RecordSized tbl
  /-- A record is owned by `t` exactly when its `INSERT` waits, and by nobody otherwise. -/
  owner : ∀ x ∈ tbl.recordHandler.records,
    recordOwner x.data = if .insert x.rid ∈ ops then t.trxId else 0
  /-- A record is marked deleted exactly when its `DELETE` waits. -/
  deleted : ∀ x ∈ tbl.recordHandler.records, recordDeleted x.data = decide (.delete x.rid ∈ ops)
  /-- Every waiting entry is an `INSERT` or a `DELETE` of an address the heap holds. -/
  logged : ∀ op ∈ ops, ∃ rid ∈ tbl.recordHandler.rids, op = .insert rid ∨ op = .delete rid
  nodup : ops.Nodup
  /-- No `INSERT` waits behind the `DELETE` of its address. -/
  ordered : ops.Pairwise fun a b => ∀ rid, a = .delete rid → b ≠ .insert rid

/-- A table between transactions: indexes up to date and on user fields, every record of
full size with its header cleared. -/
structure Committed (tbl : Table) : Prop where
  indexed : Indexed tbl
  sized : RecordSized tbl
  committed : ∀ x ∈ tbl.recordHandler.records, trxWord x.data = 0

/-- The rows of the table `start` a transaction began from, as its entries `ops` leave the
table. -/
structure Tracked (start : List Record) (ops : List Operation) (tbl : Table) : Prop where
  /-- A row of `start` whose `DELETE` is not logged is still in the heap as it was, and one
  whose `DELETE` is logged is there marked deleted. -/
  kept : ∀ x ∈ start, (.delete x.rid ∉ ops → x ∈ tbl.recordHandler.records) ∧
    (.delete x.rid ∈ ops → ⟨x.rid, markDeleted x.data⟩ ∈ tbl.recordHandler.records)
  /-- Every other row is at an address whose `INSERT` is logged. -/
  added : ∀ y ∈ tbl.recordHandler.records, (∃ x ∈ start, x.rid = y.rid) ∨ .insert y.rid ∈ ops

/-! ### Records at one address -/

section Heap

variable {h h' : RecordFileHandler} {x : Record}

theorem RecordFileHandler.eq_of_get {rid : RID} (hg : h.get rid = some x) {y : Record}
    (hy : y ∈ h.records) (e : y.rid = rid) : y = x :=
  Option.some.inj ((RecordFileHandler.get_eq_some_iff.2 ⟨hy, e⟩).symm.trans hg)

/-- After an update, a record is the new one or an old one at another address. -/
theorem RecordFileHandler.mem_update {rec : Record} (hu : h.update rec = some h') {y : Record}
    (hy : y ∈ h'.records) : y = rec ∨ (y.rid ≠ rec.rid ∧ y ∈ h.records) := by
  rw [RecordFileHandler.records_update hu] at hy
  obtain ⟨z, hz, rfl⟩ := List.mem_map.1 hy
  by_cases e : z.rid = rec.rid <;> simp [e, hz]

theorem RecordFileHandler.mem_update_of_ne {rec : Record} (hu : h.update rec = some h')
    {y : Record} (hy : y ∈ h.records) (ne : y.rid ≠ rec.rid) : y ∈ h'.records := by
  rw [RecordFileHandler.records_update hu]
  exact List.mem_map.2 ⟨y, hy, if_neg ne⟩

theorem RecordFileHandler.mem_delete {rid : RID} (hd : h.delete rid = some h') {y : Record}
    (hy : y ∈ h'.records) : y.rid ≠ rid ∧ y ∈ h.records := by
  rw [RecordFileHandler.records_delete hd, List.mem_filter, bne_iff_ne] at hy
  exact ⟨hy.2, hy.1⟩

theorem RecordFileHandler.mem_rids_insert {data : Bytes} {rid : RID} :
    rid ∈ (h.insert data).2.rids ↔ rid ∈ h.rids ∨ rid = h.freeSlot := by
  simp [RecordFileHandler.mem_rids, RecordFileHandler.insert, List.mem_orderedInsert, or_and_right,
    exists_or, or_comm, eq_comm]

variable {t : Trx}

theorem mem_published {records : List Record} {y : Record} :
    y ∈ published t records ↔
      ∃ z ∈ records, isVisible t z.data = true ∧ ⟨z.rid, setTrxWord z.data 0⟩ = y := by
  simp [published, and_assoc]

/-- A rewrite of the heap that keeps, record by record, the address, whether `t` sees it,
and the record once committed, changes nothing `t` publishes. -/
theorem published_map {f : Record → Record} {records : List Record}
    (hf : ∀ z ∈ records, isVisible t (f z).data = isVisible t z.data ∧ (f z).rid = z.rid ∧
      setTrxWord (f z).data 0 = setTrxWord z.data 0) :
    published t (records.map f) = published t records := by
  simp only [published, List.filter_map, List.map_map, Function.comp_def]
  rw [List.filter_congr fun z hz => (hf z hz).1]
  refine List.map_congr_left fun z hz => ?_
  obtain ⟨-, rid, word⟩ := hf z (List.mem_filter.1 hz).1
  rw [rid, word]

/-- Clearing the owner of a record `t` owns or nobody owns changes nothing `t` publishes. -/
theorem published_update_clearOwner (hg : h.get x.rid = some x) (hlen : 4 ≤ x.data.length)
    (owned : recordOwner x.data = 0 ∨ recordOwner x.data = t.trxId)
    (hu : h.update ⟨x.rid, clearOwner x.data⟩ = some h') :
    published t h'.records = published t h.records := by
  rw [RecordFileHandler.records_update hu]
  refine published_map fun z hz => ?_
  by_cases e : z.rid = x.rid
  · obtain rfl := RecordFileHandler.eq_of_get hg hz e
    have visible : isVisible t (clearOwner z.data) = isVisible t z.data := by
      rw [isVisible_of_owner (.inl (recordOwner_clearOwner hlen)), recordDeleted_clearOwner hlen,
        isVisible_of_owner owned]
    rw [if_pos rfl]
    refine ⟨visible, rfl, ?_⟩
    show setTrxWord (clearOwner z.data) 0 = setTrxWord z.data 0
    unfold clearOwner
    split <;> exact setTrxWord_setTrxWord _ _ _
  · simp [e]

/-- Taking a record out that `t` cannot see changes nothing `t` publishes. -/
theorem published_delete_of_invisible (hg : h.get x.rid = some x)
    (hidden : isVisible t x.data = false) (hd : h.delete x.rid = some h') :
    published t h'.records = published t h.records := by
  rw [RecordFileHandler.records_delete hd, published, published, List.filter_filter]
  congr 1
  refine List.filter_congr fun z hz => ?_
  by_cases e : z.rid = x.rid
  · simp [e, RecordFileHandler.eq_of_get hg hz e, hidden]
  · simp [e]

end Heap

namespace CommitReady

variable {t : Trx} {ops : List Operation} {tbl : Table}

theorem four_le_length (ready : CommitReady t ops tbl) {x : Record}
    (hx : x ∈ tbl.recordHandler.records) : 4 ≤ x.data.length := by
  rw [ready.sized x hx]
  have := tbl.tableMeta.four_le_recordSize
  omega

/-- A record is owned by `t` or by nobody. -/
theorem owned (ready : CommitReady t ops tbl) {x : Record} (hx : x ∈ tbl.recordHandler.records) :
    recordOwner x.data = 0 ∨ recordOwner x.data = t.trxId := by
  rw [ready.owner x hx]
  split
  · exact .inr rfl
  · exact .inl rfl

/-- `t` sees a record exactly when its `DELETE` is not waiting. -/
theorem isVisible_eq (ready : CommitReady t ops tbl) {x : Record}
    (hx : x ∈ tbl.recordHandler.records) :
    isVisible t x.data = !decide (.delete x.rid ∈ ops) := by
  rw [isVisible_of_owner (ready.owned hx), ready.deleted x hx]

/-- Another transaction sees a record exactly when `t` has neither inserted nor deleted it. -/
theorem isVisible_other (ready : CommitReady t ops tbl) (valid : t.Valid) {t' : Trx}
    (other : t'.trxId ≠ t.trxId) {x : Record} (hx : x ∈ tbl.recordHandler.records) :
    isVisible t' x.data = !(decide (.insert x.rid ∈ ops) || decide (.delete x.rid ∈ ops)) := by
  rw [isVisible, ready.owner x hx, ready.deleted x hx]
  by_cases hi : .insert x.rid ∈ ops
  · simp [hi, other.symm, valid.pos.ne']
  · simp [hi]

/-- A committed table is ready for an empty log. -/
theorem init (c : Committed tbl) : CommitReady t [] tbl where
  indexed := c.indexed
  sized := c.sized
  owner x hx := by simp [recordOwner, c.committed x hx]
  deleted x hx := by simp [recordDeleted, c.committed x hx, deletedFlag]
  logged _ h := absurd h (List.not_mem_nil _)
  nodup := List.nodup_nil
  ordered := List.Pairwise.nil

/-- The log names no address the heap does not hold. -/
theorem not_mem_of_not_mem_rids (ready : CommitReady t ops tbl) {rid : RID}
    (h : rid ∉ tbl.recordHandler.rids) : .insert rid ∉ ops ∧ .delete rid ∉ ops := by
  constructor <;> intro hop <;> obtain ⟨rid', used, e | e⟩ := ready.logged _ hop <;> cases e <;>
    exact h used

/-- A record `t` sees has no `DELETE` waiting. -/
theorem not_mem_of_isVisible (ready : CommitReady t ops tbl) {x : Record}
    (hx : x ∈ tbl.recordHandler.records) (visible : isVisible t x.data = true) :
    .delete x.rid ∉ ops := by
  simpa [ready.isVisible_eq hx] using visible

/-- At an address whose `INSERT` waits and whose `DELETE` does not, `t` publishes a row. -/
theorem exists_published (ready : CommitReady t ops tbl) {rid : RID} (hi : .insert rid ∈ ops)
    (hd : .delete rid ∉ ops) : ∃ y ∈ published t tbl.recordHandler.records, y.rid = rid := by
  obtain ⟨rid', used, e | e⟩ := ready.logged _ hi <;> cases e
  obtain ⟨z, hz, rfl⟩ := RecordFileHandler.mem_rids.1 used
  exact ⟨_, mem_published.2 ⟨z, hz, by simp [ready.isVisible_eq hz, hd], rfl⟩, rfl⟩

/-- Once nothing is left to commit, every record is committed. -/
theorem trxWord_eq_zero (ready : CommitReady t [] tbl) {x : Record}
    (hx : x ∈ tbl.recordHandler.records) : trxWord x.data = 0 := by
  have owner := ready.owner x hx
  have deleted := ready.deleted x hx
  simp only [List.not_mem_nil, if_false, decide_False, recordOwner, recordDeleted,
    decide_eq_false_iff_not, Nat.not_le] at owner deleted
  unfold deletedFlag at owner deleted
  omega

/-- Once nothing is left to commit, the heap is what it publishes. -/
theorem published_eq (ready : CommitReady t [] tbl) :
    published t tbl.recordHandler.records = tbl.recordHandler.records := by
  rw [published, List.filter_eq_self.2 fun x hx => by simp [ready.isVisible_eq hx]]
  refine (List.map_congr_left fun x hx => ?_).trans (List.map_id _)
  rw [← ready.trxWord_eq_zero hx, setTrxWord_trxWord (ready.four_le_length hx)]
  rfl

/-- Once nothing is left to commit, the table is committed. -/
theorem committed (ready : CommitReady t [] tbl) : Committed tbl :=
  ⟨ready.indexed, ready.sized, fun _ => ready.trxWord_eq_zero⟩

/-! #### A statement of `t` -/

/-- `insert_record` of `t`: a record of full size owned by `t` at the first free slot, its
entry in every index, and its `INSERT` logged. -/
theorem insert (ready : CommitReady t ops tbl) {data stored : Bytes}
    (hkey : ∀ i ∈ tbl.indexes, i.key stored = i.key data)
    (full : stored.length = tbl.tableMeta.recordSize + tbl.tableMeta.fieldNum)
    (owned : recordOwner stored = t.trxId) (live : recordDeleted stored = false) :
    CommitReady t (ops ++ [.insert tbl.recordHandler.freeSlot]) { tbl with
      recordHandler := (tbl.recordHandler.insert stored).2
      indexes := tbl.indexes.map (·.insertEntry data tbl.recordHandler.freeSlot) } := by
  have unused := tbl.recordHandler.freeSlot_not_mem
  obtain ⟨fresh, unlogged⟩ := ready.not_mem_of_not_mem_rids unused
  have other : ∀ x ∈ tbl.recordHandler.records, x.rid ≠ tbl.recordHandler.freeSlot :=
    fun x hx e => unused (RecordFileHandler.mem_rids.2 ⟨x, hx, e⟩)
  refine ⟨ready.indexed.insert hkey, fun x hx => ?_, fun x hx => ?_, fun x hx => ?_,
    fun op hop => ?_, List.nodup_append.2 ⟨ready.nodup, List.nodup_singleton _, ?_⟩,
    List.pairwise_append.2 ⟨ready.ordered, List.pairwise_singleton _ _, ?_⟩⟩
  · rcases RecordFileHandler.mem_insert_records hx with old | rfl
    exacts [ready.sized x old, full]
  · rcases RecordFileHandler.mem_insert_records hx with old | rfl
    · simpa [other x old] using ready.owner x old
    · simp [owned]
  · rcases RecordFileHandler.mem_insert_records hx with old | rfl
    · simpa using ready.deleted x old
    · simpa [live] using unlogged
  · rcases List.mem_append.1 hop with old | new
    · obtain ⟨rid, used, e⟩ := ready.logged op old
      exact ⟨rid, RecordFileHandler.mem_rids_insert.2 (.inl used), e⟩
    · exact ⟨_, RecordFileHandler.mem_rids_insert.2 (.inr rfl), .inl (List.mem_singleton.1 new)⟩
  · intro op old new
    rw [List.mem_singleton.1 new] at old
    exact fresh old
  · intro a old b new rid e
    rw [List.mem_singleton.1 new]
    rintro ⟨⟩
    exact unlogged (e ▸ old)

/-- `delete_record` of `t` on a record it sees: the record marked deleted in place and its
`DELETE` logged. -/
theorem markDeleted {x : Record} {h' : RecordFileHandler} (ready : CommitReady t ops tbl)
    (hg : tbl.recordHandler.get x.rid = some x) (visible : isVisible t x.data = true)
    (hu : tbl.recordHandler.update ⟨x.rid, markDeleted x.data⟩ = some h') :
    CommitReady t (ops ++ [.delete x.rid]) { tbl with recordHandler := h' } := by
  have hx := (RecordFileHandler.get_eq_some_iff.1 hg).1
  have hlen := ready.four_le_length hx
  have unlogged := ready.not_mem_of_isVisible hx visible
  refine ⟨ready.indexed.step (TableStep.rewriteTrxWord ready.indexed hg hu), fun y hy => ?_,
    fun y hy => ?_, fun y hy => ?_, fun op hop => ?_,
    List.nodup_append.2 ⟨ready.nodup, List.nodup_singleton _, ?_⟩,
    List.pairwise_append.2 ⟨ready.ordered, List.pairwise_singleton _ _, ?_⟩⟩
  · rcases RecordFileHandler.mem_update hu hy with rfl | ⟨-, old⟩
    · exact (length_markDeleted _).trans (ready.sized x hx)
    · exact ready.sized y old
  · rcases RecordFileHandler.mem_update hu hy with rfl | ⟨-, old⟩
    · simpa [recordOwner_markDeleted hlen] using ready.owner x hx
    · simpa using ready.owner y old
  · rcases RecordFileHandler.mem_update hu hy with rfl | ⟨ne, old⟩
    · simp [recordDeleted_markDeleted hlen]
    · simpa [ne] using ready.deleted y old
  · rw [RecordFileHandler.rids_update hu]
    rcases List.mem_append.1 hop with old | new
    · exact ready.logged op old
    · exact ⟨x.rid, RecordFileHandler.mem_rids.2 ⟨x, hx, rfl⟩, .inr (List.mem_singleton.1 new)⟩
  · intro op old new
    rw [List.mem_singleton.1 new] at old
    exact unlogged old
  · intro a _ b new rid _
    rw [List.mem_singleton.1 new]
    exact Operation.noConfusion

/-- Committing the `INSERT` at the head of the entries: the record's owner cleared. -/
theorem commitInsert {x : Record} {h' : RecordFileHandler}
    (ready : CommitReady t (.insert x.rid :: ops) tbl) (hg : tbl.recordHandler.get x.rid = some x)
    (hu : tbl.recordHandler.update ⟨x.rid, clearOwner x.data⟩ = some h') :
    CommitReady t ops { tbl with recordHandler := h' } := by
  have hx := (RecordFileHandler.get_eq_some_iff.1 hg).1
  have hlen := ready.four_le_length hx
  obtain ⟨fresh, nodup⟩ := List.nodup_cons.1 ready.nodup
  refine ⟨ready.indexed.step (TableStep.rewriteTrxWord ready.indexed hg hu), fun y hy => ?_,
    fun y hy => ?_, fun y hy => ?_, fun op hop => ?_, nodup, ready.ordered.of_cons⟩
  · rcases RecordFileHandler.mem_update hu hy with rfl | ⟨-, old⟩
    · exact (length_setTrxWord _ _).trans (ready.sized x hx)
    · exact ready.sized y old
  · rcases RecordFileHandler.mem_update hu hy with rfl | ⟨ne, old⟩
    · simp [recordOwner_clearOwner hlen, fresh]
    · simpa [ne] using ready.owner y old
  · rcases RecordFileHandler.mem_update hu hy with rfl | ⟨ne, old⟩
    · simpa [recordDeleted_clearOwner hlen] using ready.deleted x hx
    · simpa [ne] using ready.deleted y old
  · rw [RecordFileHandler.rids_update hu]
    exact ready.logged op (List.mem_cons_of_mem _ hop)

/-- Committing the `DELETE` at the head of the entries: the record out of every index and
out of the heap. -/
theorem commitDelete {x : Record} {h' : RecordFileHandler}
    (ready : CommitReady t (.delete x.rid :: ops) tbl) (hg : tbl.recordHandler.get x.rid = some x)
    (hd : tbl.recordHandler.delete x.rid = some h') :
    CommitReady t ops
      { tbl with recordHandler := h', indexes := tbl.indexes.map (·.eraseEntry x.data x.rid) } := by
  obtain ⟨fresh, nodup⟩ := List.nodup_cons.1 ready.nodup
  have later := (List.pairwise_cons.1 ready.ordered).1
  refine ⟨ready.indexed.remove hg hd, fun y hy => ready.sized y (RecordFileHandler.mem_delete hd hy).2,
    fun y hy => ?_, fun y hy => ?_, fun op hop => ?_, nodup, ready.ordered.of_cons⟩
  · obtain ⟨ne, old⟩ := RecordFileHandler.mem_delete hd hy
    simpa using ready.owner y old
  · obtain ⟨ne, old⟩ := RecordFileHandler.mem_delete hd hy
    simpa [ne] using ready.deleted y old
  · obtain ⟨rid, used, e⟩ := ready.logged op (List.mem_cons_of_mem _ hop)
    have ne : rid ≠ x.rid := by
      rintro rfl
      rcases e with rfl | rfl
      · exact later _ hop x.rid rfl rfl
      · exact fresh hop
    refine ⟨rid, ?_, e⟩
    obtain ⟨y, hy, rfl⟩ := RecordFileHandler.mem_rids.1 used
    refine RecordFileHandler.mem_rids.2 ⟨y, ?_, rfl⟩
    rw [RecordFileHandler.records_delete hd]
    exact List.mem_filter.2 ⟨hy, bne_iff_ne.2 ne⟩

end CommitReady

/-! ### The rows of the start table -/

namespace Tracked

variable {t : Trx} {start : List Record} {ops : List Operation} {tbl : Table}

theorem init (tbl : Table) : Tracked tbl.recordHandler.records [] tbl where
  kept _ hx := ⟨fun _ => hx, fun h => absurd h (List.not_mem_nil _)⟩
  added y hy := .inl ⟨y, hy, rfl⟩

/-- `insert_record` of `t` keeps every row and adds one at an address it logs. -/
theorem insert (tracked : Tracked start ops tbl) {data stored : Bytes} :
    Tracked start (ops ++ [.insert tbl.recordHandler.freeSlot]) { tbl with
      recordHandler := (tbl.recordHandler.insert stored).2
      indexes := tbl.indexes.map (·.insertEntry data tbl.recordHandler.freeSlot) } where
  kept x hx := by
    have old := tracked.kept x hx
    simp only [List.mem_append, List.mem_singleton, reduceCtorEq, or_false]
    exact ⟨fun hd => (List.mem_orderedInsert _).2 (.inr (old.1 hd)),
      fun hd => (List.mem_orderedInsert _).2 (.inr (old.2 hd))⟩
  added y hy := by
    rcases RecordFileHandler.mem_insert_records hy with old | rfl
    · exact (tracked.added y old).imp_right (List.mem_append_left _)
    · exact .inr (List.mem_append_right _ (List.mem_singleton_self _))

/-- `delete_record` of `t` on a record it sees marks that row, and only that one. -/
theorem markDeleted (tracked : Tracked start ops tbl) (ready : CommitReady t ops tbl)
    {r : Record} {h' : RecordFileHandler} (hg : tbl.recordHandler.get r.rid = some r)
    (visible : isVisible t r.data = true)
    (hu : tbl.recordHandler.update ⟨r.rid, markDeleted r.data⟩ = some h') :
    Tracked start (ops ++ [.delete r.rid]) { tbl with recordHandler := h' } where
  kept x hx := by
    have hr := (RecordFileHandler.get_eq_some_iff.1 hg).1
    have old := tracked.kept x hx
    by_cases e : x.rid = r.rid
    · obtain rfl := RecordFileHandler.eq_of_get hg (old.1 (e ▸ ready.not_mem_of_isVisible hr visible)) e
      exact ⟨fun hd => absurd (List.mem_append_right _ (List.mem_singleton_self _)) hd,
        fun _ => (RecordFileHandler.get_eq_some_iff.1 (RecordFileHandler.get_update_self hu)).1⟩
    · simp only [List.mem_append, List.mem_singleton, Operation.delete.injEq, e, or_false]
      exact ⟨fun hd => RecordFileHandler.mem_update_of_ne hu (old.1 hd) e,
        fun hd => RecordFileHandler.mem_update_of_ne hu (old.2 hd) e⟩
  added y hy := by
    rcases RecordFileHandler.mem_update hu hy with rfl | ⟨-, old⟩
    · exact (tracked.added r (RecordFileHandler.get_eq_some_iff.1 hg).1).imp_right
        (List.mem_append_left _)
    · exact (tracked.added y old).imp_right (List.mem_append_left _)

section Published

variable (tracked : Tracked start ops tbl) (ready : CommitReady t ops tbl)
  (committed : ∀ x ∈ start, trxWord x.data = 0)
include tracked ready committed

/-- A committed row of `start` is among the rows `t` publishes exactly when `t` did not
delete it. -/
theorem mem_published_iff {x : Record} (hx : x ∈ start) :
    x ∈ published t tbl.recordHandler.records ↔ .delete x.rid ∉ ops := by
  constructor
  · intro hp
    obtain ⟨z, hz, visible, rfl⟩ := mem_published.1 hp
    have unlogged := ready.not_mem_of_isVisible hz visible
    exact unlogged
  · intro hd
    have kept := (tracked.kept x hx).1 hd
    refine mem_published.2 ⟨x, kept, by simp [ready.isVisible_eq kept, hd], ?_⟩
    rw [← committed x hx, setTrxWord_trxWord (ready.four_le_length kept)]

/-- A row `t` publishes is a row of `start` or one at an address whose `INSERT` it logged. -/
theorem mem_of_mem_published {y : Record} (hy : y ∈ published t tbl.recordHandler.records) :
    y ∈ start ∨ .insert y.rid ∈ ops := by
  obtain ⟨z, hz, visible, rfl⟩ := mem_published.1 hy
  rcases tracked.added z hz with ⟨x, hx, e⟩ | hi
  · have kept := (tracked.kept x hx).1 (by rw [e]; exact ready.not_mem_of_isVisible hz visible)
    obtain rfl := RecordFileHandler.eq_of_get (RecordFileHandler.get_eq_some_iff.2 ⟨hz, rfl⟩) kept e
    left
    rw [← committed x hx, setTrxWord_trxWord (ready.four_le_length hz)]
    exact hx
  · exact .inr hi

end Published

end Tracked

/-! ### Committing the log -/

/-- Committing entries the table is ready for, every call succeeding: each call succeeds,
nothing is left owned or marked, and what `t` publishes is unchanged. -/
theorem runOperations_commitReady (t : Trx) : ∀ (ops : List Operation) (w : World),
    w.faults = [] → CommitReady t ops w.table →
    let run := (runOperations commitOperation ops).run w
    run.1 = .success ∧ run.2.faults = [] ∧ run.2.log = w.log ∧
      run.2.table.tableMeta = w.table.tableMeta ∧ CommitReady t [] run.2.table ∧
      published t run.2.table.recordHandler.records = published t w.table.recordHandler.records
  | [], w, clean, ready => ⟨rfl, clean, rfl, rfl, ready, rfl⟩
  | op :: ops, w, clean, ready => by
    obtain ⟨rid, used, e⟩ := ready.logged op (List.mem_cons_self _ _)
    obtain ⟨x, hx, rfl⟩ := RecordFileHandler.mem_rids.1 used
    have hg : w.table.recordHandler.get x.rid = some x := RecordFileHandler.get_eq_some_iff.2 ⟨hx, rfl⟩
    rcases e with rfl | rfl
    · obtain ⟨h', hu⟩ := RecordFileHandler.update_of_get hg (clearOwner x.data)
      obtain ⟨ok, clean', log, meta, done, same⟩ :=
        runOperations_commitReady t ops (w.setRecordHandler h') clean (ready.commitInsert hg hu)
      simp only [runOperations, commitOperation, StateT.run_bind, commitInsert_run_of_get clean hg hu,
        Id.bind_eq, ne_eq, not_true_eq_false, if_false]
      exact ⟨ok, clean', log, meta, done,
        same.trans (published_update_clearOwner hg (ready.four_le_length hx) (ready.owned hx) hu)⟩
    · obtain ⟨h', hd⟩ := RecordFileHandler.delete_of_get hg
      obtain ⟨ok, clean', log, meta, done, same⟩ := runOperations_commitReady t ops
        ((w.setIndexes (w.table.indexes.map fun i : Index => i.eraseEntry x.data x.rid)).setRecordHandler
          h') clean (ready.commitDelete hg hd)
      simp only [runOperations, commitOperation, StateT.run_bind,
        commitDelete_run_of_mem clean hg (fun i hi => ready.indexed.mem_entries hx hi) hd,
        Id.bind_eq, ne_eq, not_true_eq_false, if_false]
      exact ⟨ok, clean', log, meta, done,
        same.trans (published_delete_of_invisible hg (by simp [ready.isVisible_eq hx]) hd)⟩

/-! ### The statements of a transaction -/

/-- What a statement of `t` does as far as commit is concerned: from a table ready for the
log, in which the log accounts for the rows of `start`, it leaves a table ready for the new
log, in which the new log accounts for them, with the same meta. -/
def readyRel (t : Trx) (start : List Record) : WorldRel where
  rel w w' := CommitReady t w.log w.table → Tracked start w.log w.table →
    CommitReady t w'.log w'.table ∧ Tracked start w'.log w'.table ∧
      w'.table.tableMeta = w.table.tableMeta
  refl _ ready tracked := ⟨ready, tracked, rfl⟩
  trans h₁ h₂ ready tracked :=
    have ⟨ready₁, tracked₁, meta₁⟩ := h₁ ready tracked
    have ⟨ready₂, tracked₂, meta₂⟩ := h₂ ready₁ tracked₁
    ⟨ready₂, tracked₂, meta₂.trans meta₁⟩
  pop _ ready tracked := ⟨ready, tracked, rfl⟩

/-- A successful `insert_record(t, values)` stored `make_record`'s buffer, stamped with `t`
and read at the record's size, at the first free slot, put its entry into every index and
logged its `INSERT`. -/
theorem insertRecordValues_stored {t : Trx} {values : List Value} {w w' : World}
    (h : (insertRecordValues (some t) values).run w = (.success, w')) :
    ∃ data : Bytes, 4 ≤ data.length ∧
      (initTrxInfo t data).length ≤ w.table.tableMeta.recordSize + w.table.tableMeta.fieldNum ∧
      w'.table = { w.table with
        recordHandler := (w.table.recordHandler.insert (readBytes (initTrxInfo t data)
          (w.table.tableMeta.recordSize + w.table.tableMeta.fieldNum))).2
        indexes := w.table.indexes.map (·.insertEntry (initTrxInfo t data)
          w.table.recordHandler.freeSlot) } ∧
      w'.log = w.log ++ [.insert w.table.recordHandler.freeSlot] := by
  obtain ⟨data, rid, made, inserted⟩ := insertRecordValues_success h
  obtain ⟨rfl, table, log⟩ := insertRecord_success inserted
  obtain ⟨arity, rfl⟩ := makeRecord_eq_ok made
  have : 4 ≤ w.table.tableMeta.recordSize :=
    w.table.tableMeta.four_le_nullFieldIndex.trans w.table.tableMeta.payload_le
  refine ⟨_, ?_, ?_, table, log⟩ <;>
    simp only [initTrxInfo, length_setTrxWord, length_writeValues, List.length_replicate] <;> omega

/-- A successful `insert_record(t, values)` leaves the table ready for the log with its
`INSERT`. -/
theorem insertRecordValues_ready {t : Trx} (valid : t.Valid) (start : List Record)
    {values : List Value} {w w' : World}
    (h : (insertRecordValues (some t) values).run w = (.success, w')) :
    (readyRel t start).rel w w' := by
  intro ready tracked
  obtain ⟨data, hlen, fits, table, log⟩ := insertRecordValues_stored h
  have owned : recordOwner (readBytes (initTrxInfo t data)
      (w.table.tableMeta.recordSize + w.table.tableMeta.fieldNum)) = t.trxId := by
    unfold recordOwner
    rw [trxWord_readBytes fits]
    exact recordOwner_initTrxInfo hlen valid
  have live : recordDeleted (readBytes (initTrxInfo t data)
      (w.table.tableMeta.recordSize + w.table.tableMeta.fieldNum)) = false := by
    unfold recordDeleted
    rw [trxWord_readBytes fits]
    exact recordDeleted_initTrxInfo hlen valid
  rw [table, log]
  exact ⟨ready.insert (fun i _ => Index.key_readBytes fits) (length_readBytes _ _) owned live,
    tracked.insert, rfl⟩

/-- The per-record delete of `t` leaves the table ready for the log with its `DELETE`, and
every other address alone. -/
theorem deleterReader_ready (t : Trx) (start : List Record) :
    ReaderSpec (some t) (deleterReader (some t)) (readyRel t start) := by
  intro r count w cur visible
  have run : (deleterReader (some t) r count).run w =
      ((((trxDeleteRecord r).run w).1,
        if ((trxDeleteRecord r).run w).1 = .success then count + 1 else count),
        ((trxDeleteRecord r).run w).2) := rfl
  rw [run, trxDeleteRecord_run]
  dsimp only
  split
  · split
    · rename_i h' hu
      exact ⟨fun ready tracked => ⟨ready.markDeleted cur visible hu,
        tracked.markDeleted ready cur visible hu, rfl⟩,
        fun rid ne => RecordFileHandler.get_update_of_ne hu ne⟩
    · exact ⟨(readyRel t start).pop w, fun _ _ => rfl⟩
  · exact ⟨(readyRel t start).pop w, fun _ _ => rfl⟩

/-- A `delete_record(t, filter)` statement, whatever it returns, leaves the table ready for
the log it leaves. -/
theorem deleteRecords_ready (cmp : KeyOrder) (t : Trx) (start : List Record)
    (filter : Option ConditionFilter) (w : World) :
    (readyRel t start).rel w ((deleteRecords cmp (some t) filter).run w).2 :=
  scanRecord_preserves cmp (some t) (deleterReader (some t)) (deleterReader_ready t start) filter
    (-1) 0 w

theorem TrxRun.ready {cmp : KeyOrder} {t : Trx} (valid : t.Valid) (start : List Record)
    {w w' : World} (run : TrxRun cmp t w w') : (readyRel t start).rel w w' := by
  induction run with
  | done w => exact (readyRel t start).refl w
  | insert values h _ ih => exact (readyRel t start).trans (insertRecordValues_ready valid start h) ih
  | delete filter _ ih => exact (readyRel t start).trans (deleteRecords_ready cmp t start filter _) ih

/-- A run of a valid transaction from a committed table with an empty log leaves the table
ready for its log, the log accounting for every row it started from. -/
theorem TrxRun.ready_of_committed {cmp : KeyOrder} {t : Trx} {w w' : World} (valid : t.Valid)
    (start : Committed w.table) (fresh : w.log = []) (run : TrxRun cmp t w w') :
    CommitReady t w'.log w'.table ∧ Tracked w.table.recordHandler.records w'.log w'.table ∧
      w'.table.tableMeta = w.table.tableMeta := by
  refine run.ready valid _ ?_ ?_ <;> rw [fresh]
  exacts [.init start, .init _]

/-- What each transaction sees while `t` runs: after any run of `INSERT` and `DELETE`
statements of a valid transaction `t` from a committed table with an empty log, `t` sees
every record but those it deleted, and every other transaction sees exactly the records `t`
neither inserted nor deleted. -/
theorem trxRun_visibility {cmp : KeyOrder} {t t' : Trx} {w w' : World} (valid : t.Valid)
    (start : Committed w.table) (fresh : w.log = []) (run : TrxRun cmp t w w')
    (other : t'.trxId ≠ t.trxId) {x : Record} (hx : x ∈ w'.table.recordHandler.records) :
    isVisible t x.data = !decide (.delete x.rid ∈ w'.log) ∧
      isVisible t' x.data = !(decide (.insert x.rid ∈ w'.log) || decide (.delete x.rid ∈ w'.log)) := by
  obtain ⟨ready, -⟩ := run.ready_of_committed valid start fresh
  exact ⟨ready.isVisible_eq hx, ready.isVisible_other valid other hx⟩

/-- `a < 3`, the attribute on the left. -/
def aBelowThree : ConditionFilter :=
  .default ⟨⟨true, 4, 4, 8, .ints, [], false⟩, ⟨false, 0, 0, 0, .ints, intBytes 3, false⟩, .ints,
    .lessThan⟩

/-- Transaction `7` inserts `a = 5` into `t`, whose index `ix` is on `a`, then deletes the
rows with `a < 3`: the row `a = 1` is marked deleted, the row `a = 5` is owned by `7`. -/
def insertDeleteWorld : World :=
  ((deleteRecords intOrder (some ⟨7⟩) (some aBelowThree)).run
    ((insertRecordValues (some ⟨7⟩) [valueInitInteger 5 false]).run indexedWorld).2).2

/-- The row `a = 5` that transaction `7` inserted is seen by `7` and not by `8`. -/
theorem trxRun_visibility_insertDeleteWorld :
    Trx.Valid ⟨7⟩ ∧ Committed indexedWorld.table ∧ indexedWorld.log = [] ∧
      (⟨8⟩ : Trx).trxId ≠ (⟨7⟩ : Trx).trxId ∧
      (⟨⟨0, 1⟩, [7, 0, 0, 0, 5, 0, 0, 0, 0, 0]⟩ : Record) ∈
        insertDeleteWorld.table.recordHandler.records ∧
      isVisible ⟨7⟩ [7, 0, 0, 0, 5, 0, 0, 0, 0, 0] =
        !decide (.delete ⟨0, 1⟩ ∈ insertDeleteWorld.log) ∧
      isVisible ⟨8⟩ [7, 0, 0, 0, 5, 0, 0, 0, 0, 0] =
        !(decide (.insert ⟨0, 1⟩ ∈ insertDeleteWorld.log) ||
          decide (.delete ⟨0, 1⟩ ∈ insertDeleteWorld.log)) :=
  have start : Committed indexedWorld.table := ⟨by decide, by decide, by decide⟩
  have hx : (⟨⟨0, 1⟩, [7, 0, 0, 0, 5, 0, 0, 0, 0, 0]⟩ : Record) ∈
      insertDeleteWorld.table.recordHandler.records := by decide
  ⟨⟨by decide, by decide⟩, start, rfl, by decide, hx,
    @trxRun_visibility intOrder ⟨7⟩ ⟨8⟩ indexedWorld insertDeleteWorld ⟨by decide, by decide⟩ start
      rfl (.insert [valueInitInteger 5 false] rfl (.delete (some aBelowThree) (.done _))) (by decide)
      ⟨⟨0, 1⟩, [7, 0, 0, 0, 5, 0, 0, 0, 0, 0]⟩ hx⟩

/-! ### A whole transaction, then commit -/

/-- Commit of a log the table is ready for, every call succeeding: `SUCCESS`, the log
emptied, and a committed table with the same meta whose heap is what `t` publishes. -/
theorem trxCommit_run_of_ready {t : Trx} {w : World} (ready : CommitReady t w.log w.table) :
    ∃ tbl, trxCommit.run { w with faults := [] } = (.success, ⟨tbl, [], []⟩) ∧
      tbl.recordHandler.records = published t w.table.recordHandler.records ∧
      Committed tbl ∧ tbl.tableMeta = w.table.tableMeta := by
  obtain ⟨ok, clean, -, commitMeta, done, same⟩ :=
    runOperations_commitReady t w.log { w with faults := [] } rfl ready
  refine ⟨_, ?_, done.published_eq.symm.trans same, done.committed, commitMeta⟩
  rw [trxCommit_run, ok]
  simp only [World.setLog, clean]

/-- Commit publishes what the transaction saw: after any run of `INSERT` and `DELETE`
statements of a valid transaction `t` from a committed table with an empty log,
`Trx::commit` with every call succeeding returns `SUCCESS`, empties the log, and leaves a
committed table with the same meta whose heap is the records `t` saw, each with its header
cleared. -/
theorem trxCommit_publishes {cmp : KeyOrder} {t : Trx} {w w' : World} (valid : t.Valid)
    (start : Committed w.table) (fresh : w.log = []) (run : TrxRun cmp t w w') :
    ∃ tbl, trxCommit.run { w' with faults := [] } = (.success, ⟨tbl, [], []⟩) ∧
      tbl.recordHandler.records = published t w'.table.recordHandler.records ∧
      Committed tbl ∧ tbl.tableMeta = w.table.tableMeta := by
  obtain ⟨ready, -, sameMeta⟩ := run.ready_of_committed valid start fresh
  obtain ⟨tbl, ran, rows, committed, commitMeta⟩ := trxCommit_run_of_ready ready
  exact ⟨tbl, ran, rows, committed, commitMeta.trans sameMeta⟩

/-- Transaction `7`'s run above, then commit: the heap is the row `a = 5`, committed. -/
theorem trxCommit_publishes_insertDeleteWorld :
    Trx.Valid ⟨7⟩ ∧ Committed indexedWorld.table ∧ indexedWorld.log = [] ∧
      ∃ tbl, trxCommit.run { insertDeleteWorld with faults := [] } = (.success, ⟨tbl, [], []⟩) ∧
        tbl.recordHandler.records = published ⟨7⟩ insertDeleteWorld.table.recordHandler.records ∧
        Committed tbl ∧ tbl.tableMeta = indexedWorld.table.tableMeta :=
  have start : Committed indexedWorld.table := ⟨by decide, by decide, by decide⟩
  ⟨⟨by decide, by decide⟩, start, rfl, trxCommit_publishes ⟨by decide, by decide⟩ start rfl
    (.insert [valueInitInteger 5 false] rfl (.delete (some aBelowThree) (.done _)))⟩

example : published ⟨7⟩ insertDeleteWorld.table.recordHandler.records =
    [⟨⟨0, 1⟩, [0, 0, 0, 0, 5, 0, 0, 0, 0, 0]⟩] := by decide

/-- Commit applies the transaction's log to the table it started from: after any run of
`INSERT` and `DELETE` statements of a valid transaction `t` from a committed table with an
empty log, `Trx::commit` with every call succeeding returns `SUCCESS` and leaves a heap that
holds a row of the start table, unchanged, exactly when `t` did not delete it; whose other
rows are at addresses `t` inserted; and that holds a row at every address `t` inserted and
did not delete. -/
theorem trxCommit_applies_log {cmp : KeyOrder} {t : Trx} {w w' : World} (valid : t.Valid)
    (start : Committed w.table) (fresh : w.log = []) (run : TrxRun cmp t w w') :
    ∃ tbl, trxCommit.run { w' with faults := [] } = (.success, ⟨tbl, [], []⟩) ∧
      (∀ x ∈ w.table.recordHandler.records,
        x ∈ tbl.recordHandler.records ↔ .delete x.rid ∉ w'.log) ∧
      (∀ y ∈ tbl.recordHandler.records,
        y ∈ w.table.recordHandler.records ∨ .insert y.rid ∈ w'.log) ∧
      (∀ rid, .insert rid ∈ w'.log → .delete rid ∉ w'.log →
        ∃ y ∈ tbl.recordHandler.records, y.rid = rid) := by
  obtain ⟨ready, tracked, -⟩ := run.ready_of_committed valid start fresh
  obtain ⟨tbl, ran, rows, -⟩ := trxCommit_run_of_ready ready
  refine ⟨tbl, ran, ?_⟩
  rw [rows]
  exact ⟨fun x hx => tracked.mem_published_iff ready start.committed hx,
    fun y hy => tracked.mem_of_mem_published ready start.committed hy,
    fun rid hi hd => ready.exists_published hi hd⟩

/-- Transaction `7`'s run above, then commit: the row `a = 1` it deleted is gone. -/
theorem trxCommit_applies_log_insertDeleteWorld :
    Trx.Valid ⟨7⟩ ∧ Committed indexedWorld.table ∧ indexedWorld.log = [] ∧
      ∃ tbl, trxCommit.run { insertDeleteWorld with faults := [] } = (.success, ⟨tbl, [], []⟩) ∧
        (∀ x ∈ indexedWorld.table.recordHandler.records,
          x ∈ tbl.recordHandler.records ↔ .delete x.rid ∉ insertDeleteWorld.log) ∧
        (∀ y ∈ tbl.recordHandler.records,
          y ∈ indexedWorld.table.recordHandler.records ∨ .insert y.rid ∈ insertDeleteWorld.log) ∧
        (∀ rid, .insert rid ∈ insertDeleteWorld.log → .delete rid ∉ insertDeleteWorld.log →
          ∃ y ∈ tbl.recordHandler.records, y.rid = rid) :=
  have start : Committed indexedWorld.table := ⟨by decide, by decide, by decide⟩
  ⟨⟨by decide, by decide⟩, start, rfl, trxCommit_applies_log ⟨by decide, by decide⟩ start rfl
    (.insert [valueInitInteger 5 false] rfl (.delete (some aBelowThree) (.done _)))⟩


/-! ### Sessions of transactions -/

/-- Rollback of a log that unwinds the table to `tbl`, every call succeeding: `SUCCESS`,
the table `tbl`, and the log emptied. -/
theorem trxRollback_run_of_unwinds {w : World} {tbl : Table} (unwinds : Unwinds w.log tbl w.table) :
    trxRollback.run { w with faults := [] } = (.success, ⟨tbl, [], []⟩) := by
  simp only [trxRollback, StateT.run_bind, StateT.run_get, Id.pure_eq, Id.bind_eq]
  rw [show ({ w with faults := [] } : World) = ⟨w.table, w.log, []⟩ from rfl, unwinds w.log]
  rfl

/-- Transactions one after another: each a run of `INSERT` and `DELETE` statements of a
transaction, then `Trx::commit`, the transaction valid, or `Trx::rollback`, with every call
of either succeeding. -/
inductive TrxSession (cmp : KeyOrder) : World → World → Prop
  | done (w : World) : TrxSession cmp w w
  | commit {w w₁ w₂ : World} (t : Trx) (valid : t.Valid) :
      TrxRun cmp t w w₁ → TrxSession cmp (trxCommit.run { w₁ with faults := [] }).2 w₂ →
        TrxSession cmp w w₂
  | rollback {w w₁ w₂ : World} (t : Trx) :
      TrxRun cmp t w w₁ → TrxSession cmp (trxRollback.run { w₁ with faults := [] }).2 w₂ →
        TrxSession cmp w w₂

/-- Between transactions the table is committed: from a committed table with an empty log,
after any session of transactions each committed or rolled back, every record has a clear
trx word, the indexes are up to date and on user fields, every record has full size, the log
is empty, and the meta is the one the session started with. -/
theorem trxSession_committed {cmp : KeyOrder} {w w' : World} (start : Committed w.table)
    (fresh : w.log = []) (run : TrxSession cmp w w') :
    Committed w'.table ∧ w'.log = [] ∧ w'.table.tableMeta = w.table.tableMeta := by
  induction run with
  | done => exact ⟨start, fresh, rfl⟩
  | commit t valid trx _ ih =>
    obtain ⟨ready, -, sameMeta⟩ := trx.ready_of_committed valid start fresh
    obtain ⟨tbl, ran, -, committed, commitMeta⟩ := trxCommit_run_of_ready ready
    rw [ran] at ih
    obtain ⟨after, emptied, meta⟩ := ih committed rfl
    exact ⟨after, emptied, meta.trans (commitMeta.trans sameMeta)⟩
  | rollback t trx _ ih =>
    obtain ⟨-, -, ops, log, unwinds⟩ := trx.unwinds start.sized
    rw [fresh, List.nil_append] at log
    rw [trxRollback_run_of_unwinds (log ▸ unwinds)] at ih
    exact ih start rfl

/-- Transaction `7`'s run above, committed, then transaction `8` inserts `a = 6` and rolls
back. -/
def committedThenRolledBackWorld : World :=
  (trxRollback.run { ((insertRecordValues (some ⟨8⟩) [valueInitInteger 6 false]).run
    (trxCommit.run { insertDeleteWorld with faults := [] }).2).2 with faults := [] }).2

theorem trxSession_committed_indexedWorld :
    Committed indexedWorld.table ∧ indexedWorld.log = [] ∧
      TrxSession intOrder indexedWorld committedThenRolledBackWorld ∧
      Committed committedThenRolledBackWorld.table ∧ committedThenRolledBackWorld.log = [] ∧
      committedThenRolledBackWorld.table.tableMeta = indexedWorld.table.tableMeta :=
  have start : Committed indexedWorld.table := ⟨by decide, by decide, by decide⟩
  have run : TrxSession intOrder indexedWorld committedThenRolledBackWorld :=
    .commit ⟨7⟩ ⟨by decide, by decide⟩
      (.insert [valueInitInteger 5 false] rfl (.delete (some aBelowThree) (.done _)))
      (.rollback ⟨8⟩ (.insert [valueInitInteger 6 false] rfl (.done _)) (.done _))
  ⟨start, rfl, run, trxSession_committed start rfl run⟩

example : committedThenRolledBackWorld.table.recordHandler.records =
    [⟨⟨0, 1⟩, [0, 0, 0, 0, 5, 0, 0, 0, 0, 0]⟩] := by decide

end Miniob
