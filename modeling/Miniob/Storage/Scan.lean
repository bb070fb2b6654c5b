import Miniob.Storage.Table

/-!
Scans, and the statements built on them: `Table::scan_record`,
`scan_record_by_index`, `find_index_for_scan`, the statement-level `update_record` and
`delete_record`, and `create_index` (`table.cpp`).

Modelled from the spec: `condition_filter.cpp` and the B+-tree scanner are not in the
sources. §4.4: a `DefaultConditionFilter` compares two sides, each an attribute of the
record (offset, length, null-flag byte) or a literal, and is false when either side is
NULL or the two types differ; a `CompositeConditionFilter` is the AND of its filters.
§4.3: an index scanner yields the rids of the entries whose key satisfies the operator
against the given value. Both compare keys with one order per type (`KeyOrder`, a
parameter: float comparison with an absolute epsilon is not modelled).

The scanner is modelled as the list of rids it would yield, taken from the index when it
is created (`Index.createScanner`), in the order the index keeps its entries. That order is
byte-wise on the key's little-endian bytes (`keyLt`), not the typed order of the B+-tree,
so where a run depends on the order (a positive limit on the index path) it is not the
code's order: of the `INTS` keys `1` and `256`, the model yields `256` first. §4.3's
scanner is a cursor over the live tree's leaves; it yields the rids taken at creation as
long as nothing writes the index while the scan runs, which is what the index-path
results ask of their readers (`scanRecord_run_perm`). A reader that erases or inserts
entries of the index being scanned (the `DELETE` and `UPDATE` readers without a
transaction) can make a live cursor skip or revisit entries; the model does not show that.

A scan hands each record to `record_reader` with a context the reader may change (the
C++ `void *context`); here the context is threaded through and returned. The records a
heap scan visits are those present when it starts: every reader in this file changes only
the record it is given and that record's index entries, so a page-by-page scan meets the
others unchanged.
-/

namespace Miniob

/-- `CompOp`: the comparison operators of a condition. -/
inductive CompOp where
  | equalTo
  | lessEqual
  | notEqual
  | lessThan
  | greatEqual
  | greatThan
  deriving DecidableEq, Repr

/-- Whether `a op b` holds, given how `a` compares to `b`. -/
def CompOp.holds : CompOp → Ordering → Bool
  | .equalTo, o => o == .eq
  | .lessEqual, o => o != .gt
  | .notEqual, o => o != .eq
  | .lessThan, o => o == .lt
  | .greatEqual, o => o != .lt
  | .greatThan, o => o == .gt

/-- How keys of each type compare. -/
abbrev KeyOrder := AttrType → Bytes → Bytes → Ordering

/-- Keys compared as C `int`s, the way `INTS` and `DATES` keys compare. -/
def intOrder : KeyOrder := fun _ a b => compare (intOfBytes a) (intOfBytes b)

/-- `ConDesc`: one side of a condition. -/
structure ConDesc where
  isAttr : Bool
  attrOffset : Nat
  attrLength : Nat
  nullFieldIndex : Nat
  type : AttrType
  value : Bytes
  isNull : Bool
  deriving DecidableEq, Repr

/-- A side's bytes in a record, and whether it is NULL there. -/
def ConDesc.read (d : ConDesc) (data : Bytes) : Bytes × Bool :=
  if d.isAttr then (slice data d.attrOffset d.attrLength, data.getD d.nullFieldIndex 0 == 1)
  else (d.value, d.isNull)

/-- `DefaultConditionFilter`: `left comp_op right`. -/
structure DefaultConditionFilter where
  left : ConDesc
  right : ConDesc
  attrType : AttrType
  compOp : CompOp
  deriving DecidableEq, Repr

/-- `DefaultConditionFilter::filter(record)`. -/
def DefaultConditionFilter.filter (cmp : KeyOrder) (f : DefaultConditionFilter)
    (data : Bytes) : Bool :=
  !(f.left.read data).2 && !(f.right.read data).2 && f.left.type == f.right.type &&
    f.compOp.holds (cmp f.attrType (f.left.read data).1 (f.right.read data).1)

/-- A `ConditionFilter`: a `DefaultConditionFilter` or a `CompositeConditionFilter`. -/
inductive ConditionFilter where
  | default (f : DefaultConditionFilter)
  | composite (fs : List DefaultConditionFilter)
  deriving DecidableEq, Repr

/-- `filter->filter(record)`. -/
def ConditionFilter.filter (cmp : KeyOrder) : ConditionFilter → Bytes → Bool
  | .default f, data => f.filter cmp data
  | .composite fs, data => fs.all fun f => f.filter cmp data

/-- `filter == nullptr || filter->filter(record)`. -/
def passes (cmp : KeyOrder) : Option ConditionFilter → Bytes → Bool
  | none, _ => true
  | some f, data => f.filter cmp data

/-- `index->create_scanner(comp_op, value, …)`: the rids of the entries whose key stands
in `comp_op` to `value`, in the index's entry order, as the index holds them when the
scanner is created. -/
def Index.createScanner (cmp : KeyOrder) (i : Index) (op : CompOp) (value : Bytes) : List RID :=
  (i.entries.filter fun e => op.holds (cmp i.fieldMeta.type e.1 value)).map (·.2)

/-! ### Choosing an index -/

section Scan

variable (cmp : KeyOrder)

/-- `Table::find_index_for_scan(const DefaultConditionFilter &)`: the attribute side and
the literal side, the field at the attribute's offset, the index on that field, and a
scanner with the filter's operator and the literal. -/
def findIndexForScanDefault (t : Table) (f : DefaultConditionFilter) : Option (List RID) := do
  let (fieldDesc, valueDesc) ←
    if f.left.isAttr && !f.right.isAttr then some (f.left, f.right)
    else if f.right.isAttr && !f.left.isAttr then some (f.right, f.left)
    else none
  let fieldMeta ← t.tableMeta.findFieldByOffset fieldDesc.attrOffset
  let indexMeta ← t.tableMeta.findIndexByField fieldMeta.name
  let k ← findIndex t indexMeta.name
  let index ← t.indexes[k]?
  some (index.createScanner cmp f.compOp valueDesc.value)

/-- `Table::find_index_for_scan(const ConditionFilter *)`: for a composite filter, the
first of its filters that finds a scanner. -/
def findIndexForScan (t : Table) : Option ConditionFilter → Option (List RID)
  | none => none
  | some (.default f) => findIndexForScanDefault cmp t f
  | some (.composite fs) => fs.findSome? (findIndexForScanDefault cmp t)

/-! ### Scanning -/

variable {σ : Type} (trx : Option Trx) (reader : Record → σ → Exec (RC × σ))

/-- The loop of `scan_record` over the records of the heap scan: visible records go to
the reader until it fails or `limit` of them have been read. -/
def scanHeap (limit : Nat) : List Record → Nat → σ → Exec (RC × σ)
  | [], _, ctx => pure (.success, ctx)
  | r :: rs, count, ctx =>
      if count < limit then
        if visibleTo trx r.data then do
          let (rc, ctx) ← reader r ctx
          if rc ≠ .success then pure (rc, ctx) else scanHeap limit rs (count + 1) ctx
        else scanHeap limit rs count ctx
      else pure (.success, ctx)

/-- The loop of `Table::scan_record_by_index`: each rid the scanner yields is fetched and
counted; visible records that pass the filter go to the reader. -/
def scanIndex (filter : Option ConditionFilter) (limit : Nat) :
    List RID → Nat → σ → Exec (RC × σ)
  | [], _, ctx => pure (.success, ctx)
  | rid :: rids, count, ctx =>
      if count < limit then do
        let (rc, record) ← rhGetRecord rid
        if rc ≠ .success then
          pure (rc, ctx)
        else if visibleTo trx record.data && passes cmp filter record.data then do
          let (rc, ctx) ← reader record ctx
          if rc ≠ .success then pure (rc, ctx)
          else scanIndex filter limit rids (count + 1) ctx
        else scanIndex filter limit rids (count + 1) ctx
      else pure (.success, ctx)

/-- `INT_MAX`, `2 ^ 31 - 1`: what a negative limit becomes. -/
def intMax : Nat := 2147483647

/-- `Table::scan_record(trx, filter, limit, context, record_reader)`. -/
def scanRecord (filter : Option ConditionFilter) (limit : Int) (ctx : σ) : Exec (RC × σ) := do
  if limit = 0 then
    pure (.success, ctx)
  else
    let limit := if limit < 0 then intMax else limit.toNat
    let t := (← get).table
    match findIndexForScan cmp t filter with
    | some rids => scanIndex cmp trx reader filter limit rids 0 ctx
    | none => do
        let rc ← call id (pure .success)
        let records := t.recordHandler.records.filter fun r => passes cmp filter r.data
        if rc ≠ .success then pure (rc, ctx) else scanHeap trx reader limit records 0 ctx

/-! ### What a scan does, given what its reader does

A scan calls the reader only on records it has just read from the heap, and the readers
here change at most the record they are given. So a `WorldRel` that every reader call
establishes holds between the world before a scan and the world after it, whichever path
the scan takes and whatever its calls return. -/

/-- The record the heap holds at `r.rid` is `r`. -/
def Current (w : World) (r : Record) : Prop := w.table.recordHandler.get r.rid = some r

/-- What the theorems below ask of a reader: given a current record the transaction can
see, it takes the world to one related to it by `R`, and leaves the record at every other
address alone. -/
def ReaderSpec (R : WorldRel) : Prop :=
  ∀ r ctx w, Current w r → visibleTo trx r.data = true →
    R.rel w ((reader r ctx).run w).2 ∧
    ∀ rid, rid ≠ r.rid →
      ((reader r ctx).run w).2.table.recordHandler.get rid = w.table.recordHandler.get rid

variable {R : WorldRel} (spec : ReaderSpec trx reader R)

include spec in
theorem scanHeap_rel (limit : Nat) : ∀ {rs : List Record} {count : Nat} {ctx : σ} {w : World},
    (∀ r ∈ rs, Current w r) → (rs.map (·.rid)).Nodup →
    R.rel w ((scanHeap trx reader limit rs count ctx).run w).2
  | [], _, _, w, _, _ => R.refl w
  | r :: rs, count, ctx, w, cur, nd => by
    have rest : ∀ r' ∈ rs, r'.rid ≠ r.rid := fun r' hr' he =>
      (List.nodup_cons.1 nd).1 (List.mem_map.2 ⟨r', hr', he⟩)
    have tail := (List.nodup_cons.1 nd).2
    unfold scanHeap
    split_ifs with hc hv
    · rcases hr : (reader r ctx).run w with ⟨⟨rc, ctx'⟩, w₁⟩
      obtain ⟨step, frame⟩ := spec r ctx w (cur r (List.mem_cons_self _ _)) hv
      rw [hr] at step frame
      rw [run_bind_eq hr]
      dsimp only
      split
      · exact step
      · refine R.trans step (scanHeap_rel limit (fun r' hr' => ?_) tail)
        rw [Current, frame r'.rid (rest r' hr')]
        exact cur r' (List.mem_cons_of_mem _ hr')
    · exact scanHeap_rel limit (fun r' hr' => cur r' (List.mem_cons_of_mem _ hr')) tail
    · exact R.refl w

include spec in
theorem scanIndex_rel (filter : Option ConditionFilter) (limit : Nat) :
    ∀ {rids : List RID} {count : Nat} {ctx : σ} {w : World},
    R.rel w ((scanIndex cmp trx reader filter limit rids count ctx).run w).2
  | [], _, _, w => R.refl w
  | rid :: rids, count, ctx, w => by
    unfold scanIndex
    split_ifs with hc
    · rcases hg : (rhGetRecord rid).run w with ⟨⟨rc, record⟩, w₁⟩
      have hw₁ : w₁ = w.pop := by rw [← rhGetRecord_world rid w, hg]
      rw [run_bind_eq hg]
      dsimp only
      split
      · rw [hw₁]; exact R.pop w
      · obtain rfl : rc = .success := not_not.1 ‹_›
        obtain ⟨-, found⟩ := rhGetRecord_success hg
        have cur : Current w₁ record := by
          rw [Current, hw₁, World.pop_table, (RecordFileHandler.get_eq_some_iff.1 found).2]
          exact found
        split
        · rename_i hv
          rcases hr : (reader record ctx).run w₁ with ⟨⟨rc', ctx'⟩, w₂⟩
          have step := (spec record ctx w₁ cur (Bool.and_eq_true_iff.1 hv).1).1
          rw [hr, hw₁] at step
          rw [run_bind_eq hr]
          dsimp only
          split
          · exact R.trans (R.pop w) step
          · exact R.trans (R.pop w) (R.trans step (scanIndex_rel filter limit))
        · rw [hw₁]; exact R.trans (R.pop w) (scanIndex_rel filter limit)
    · exact R.refl w

include spec in
/-- A scan relates the world before it to the world after it by `R`, whichever path it
takes and whatever its calls return. -/
theorem scanRecord_preserves (filter : Option ConditionFilter) (limit : Int) (ctx : σ) :
    Preserves R (scanRecord cmp trx reader filter limit ctx) := fun w => by
  unfold scanRecord
  split
  · exact R.refl w
  simp only [StateT.run_bind, StateT.run_get, Id.pure_eq, Id.bind_eq]
  split
  · exact scanIndex_rel cmp trx reader spec filter _
  · simp only [StateT.run_bind, call_run, StateT.run_pure, Id.pure_eq, Id.bind_eq]
    by_cases hn : w.next = .success
    · simp only [hn, if_true, StateT.run_pure, Id.pure_eq, ne_eq, not_true_eq_false, if_false]
      refine R.trans (R.pop w) (scanHeap_rel trx reader spec _ (fun r hr => ?_)
        (w.table.recordHandler.nodup.sublist ((List.filter_sublist _).map _)))
      exact RecordFileHandler.get_eq_some_iff.2 ⟨(List.mem_filter.1 hr).1, rfl⟩
    · simp only [hn, if_false, id, ne_eq, not_false_eq_true, if_true, StateT.run_pure]
      exact R.pop w

end Scan

/-! ### Statements -/

/-- `RelAttr`: a possibly qualified attribute name. -/
structure RelAttr where
  relationName : Option String
  attributeName : String
  deriving DecidableEq, Repr

/-- `Condition`: a WHERE conjunct as the parser leaves it. -/
structure Condition where
  leftIsAttr : Bool
  leftAttr : RelAttr
  leftValue : Value
  comp : CompOp
  rightIsAttr : Bool
  rightAttr : RelAttr
  rightValue : Value
  deriving DecidableEq, Repr

/-- One side of a condition resolved against the table. Modelled from the spec: an
attribute names a field, a literal carries its bytes and null flag. -/
def conDescOf (m : TableMeta) (isAttr : Bool) (attr : RelAttr) (value : Value) :
    Option ConDesc :=
  if isAttr then do
    let i ← m.findFieldIndexByName attr.attributeName
    let f ← m.field i
    some ⟨true, f.offset, f.len, m.nullFieldIndex + i - m.sysFieldNum, f.type, [], false⟩
  else some ⟨false, 0, 0, 0, value.type, value.data, value.isNull⟩

/-- `CompositeConditionFilter::init(table, conditions, condition_num)`. Modelled from the
spec: each condition becomes a `DefaultConditionFilter`; an unknown attribute fails with
`SCHEMA_FIELD_NOT_EXIST`. -/
def compositeFilterInit (m : TableMeta) (conditions : List Condition) :
    Except RC ConditionFilter :=
  match conditions.mapM fun c => do
      let l ← conDescOf m c.leftIsAttr c.leftAttr c.leftValue
      let r ← conDescOf m c.rightIsAttr c.rightAttr c.rightValue
      some (⟨l, r, if l.isAttr then l.type else r.type, c.comp⟩ : DefaultConditionFilter) with
  | some fs => .ok (.composite fs)
  | none => .error .schemaFieldNotExist

/-- Whether a side names a relation other than `rel`. -/
def RelAttr.foreign (rel : String) (isAttr : Bool) (a : RelAttr) : Bool :=
  isAttr && match a.relationName with
    | some name => name != rel
    | none => false

section Statements

variable (cmp : KeyOrder) (trx : Option Trx)

/-- `RecordUpdater::update_record`: the per-record update, counting successes. -/
def updaterReader (attributeName : String) (value : Value) (record : Record) (count : Nat) :
    Exec (RC × Nat) := do
  let rc ← updateRecordOne record attributeName value
  pure (rc, if rc = .success then count + 1 else count)

/-- The statement-level `Table::update_record(trx, attribute_name, value, condition_num,
conditions, updated_count)`: the result and `*updated_count`. -/
def updateRecord (attributeName : String) (value : Value) (conditions : List Condition) :
    Exec (RC × Nat) := do
  if conditions.length > 0 then
    let t := (← get).table
    let rel := t.tableMeta.name
    if conditions.any fun c => c.leftAttr.foreign rel c.leftIsAttr || c.rightAttr.foreign rel c.rightIsAttr then
      pure (.schemaTableNameIllegal, 0)
    else
      match compositeFilterInit t.tableMeta conditions with
      | .error rc => pure (rc, 0)
      | .ok filter => scanRecord cmp trx (updaterReader attributeName value) (some filter) (-1) 0
  else
    scanRecord cmp trx (updaterReader attributeName value) none (-1) 0

/-- The statement-level update keeps `R` when its per-record update does on the records
its scan hands over. -/
theorem updateRecord_preserves {R : WorldRel} {attributeName : String} {value : Value}
    (spec : ReaderSpec trx (updaterReader attributeName value) R) (conditions : List Condition) :
    Preserves R (updateRecord cmp trx attributeName value conditions) := by
  unfold updateRecord
  split
  · refine .bind (.of_unchanged fun _ => rfl) fun w => ?_
    dsimp only
    split
    · exact .pure _
    · split
      · exact .pure _
      · exact scanRecord_preserves cmp trx _ spec _ _ _
  · exact scanRecord_preserves cmp trx _ spec _ _ _

/-- `RecordDeleter::delete_record`: the per-record delete, counting successes. -/
def deleterReader (record : Record) (count : Nat) : Exec (RC × Nat) := do
  let rc ← deleteRecord trx record
  pure (rc, if rc = .success then count + 1 else count)

/-- With a transaction the deleter only marks the record it is handed: it writes no index. -/
theorem deleterReader_trx_indexes (t : Trx) (r : Record) (count : Nat) (w : World) :
    ((deleterReader (some t) r count).run w).2.table.indexes = w.table.indexes :=
  trxDeleteRecord_indexes r w

/-- The statement-level `Table::delete_record(trx, filter, deleted_count)`. -/
def deleteRecords (filter : Option ConditionFilter) : Exec (RC × Nat) :=
  scanRecord cmp trx (deleterReader trx) filter (-1) 0

/-- `IndexInserter::insert_index`: `index->insert_entry` on the index being built. -/
def inserterReader (record : Record) (index : Index) : Exec (RC × Index) :=
  call (fun rc => (rc, index)) (pure (.success, index.insertEntry record.data record.rid))

/-- `common::is_blank`. -/
def isBlank (s : String) : Bool := s.data.all Char.isWhitespace

/-- `Table::create_index(trx, index_name, attribute_name)`: the checks, the index file,
one entry per record the scan reads, then the index joins `indexes_` before the new meta
is added, written to the `.tmp` file and renamed over the meta file. Each file step may
fail. -/
def createIndex (indexName attributeName : String) : Exec RC := do
  if isBlank indexName || isBlank attributeName then
    pure .invalidArgument
  else
    let m := (← get).table.tableMeta
    if (m.index indexName).isSome || (m.findIndexByField attributeName).isSome then
      pure .schemaIndexExist
    else
      match m.fieldByName attributeName with
      | none => pure .schemaFieldMissing
      | some field =>
        let newIndexMeta : IndexMeta := ⟨indexName, field.name⟩
        let rc ← call id (pure .success)
        if rc ≠ .success then
          pure rc
        else
          let (rc, index) ← scanRecord cmp trx inserterReader none (-1) ⟨newIndexMeta, field, []⟩
          if rc ≠ .success then
            pure rc
          else
            modify fun w => w.setIndexes (w.table.indexes ++ [index])
            let rc ← call id (pure .success)
            if rc ≠ .success then
              pure rc
            else
              let opened ← call (fun _ => false) (pure true)
              let written ← if opened then call (fun _ => false) (pure true) else pure false
              let renamed ← if written then call (fun _ => false) (pure true) else pure false
              if !renamed then
                pure .ioerr
              else
                modify fun w => { w with table := { w.table with
                  tableMeta := w.table.tableMeta.addIndex newIndexMeta } }
                pure .success

end Statements

end Miniob
