import Miniob.Storage.IndexRun
import Miniob.Storage.ScanAgreement

/-!
The table's catalogue over whole sessions, and what `scan_record` hands over in every state
a session reaches.

`Catalogued t`: the meta lists exactly the table's indexes, under distinct names, each with
the name of the field it is built on; no two fields share a name; every record has its
full size. Every write of `TableStep` keeps it (`Catalogued.step`): the heap writes store
records of full size and keep each index's meta and field, and `create_index`, the one
write that changes the meta, adds an index under a name its check found unused. A
catalogued table is `Described` (`Catalogued.described`), so in every state a fault-free
session reaches `scan_record` hands over the heap's matching records whichever path it
takes (`scanRecord_collect_run`).
-/

namespace Miniob

/-- The meta lists exactly the indexes, under distinct names, each with the name of its
field; field names are distinct; every record has its full size. -/
structure Catalogued (t : Table) : Prop where
  metas : t.tableMeta.indexes = t.indexes.map (·.indexMeta)
  indexNames : (t.indexes.map (·.indexMeta.name)).Nodup
  onField : ∀ ix ∈ t.indexes, ix.fieldMeta.name = ix.indexMeta.field
  fieldNames : (t.tableMeta.fields.map (·.name)).Nodup
  sized : RecordSized t

instance (t : Table) : Decidable (Catalogued t) :=
  decidable_of_iff (t.tableMeta.indexes = t.indexes.map (·.indexMeta) ∧
      (t.indexes.map (·.indexMeta.name)).Nodup ∧
      (∀ ix ∈ t.indexes, ix.fieldMeta.name = ix.indexMeta.field) ∧
      (t.tableMeta.fields.map (·.name)).Nodup ∧ RecordSized t)
    ⟨fun ⟨m, n, o, f, s⟩ => ⟨m, n, o, f, s⟩, fun ⟨m, n, o, f, s⟩ => ⟨m, n, o, f, s⟩⟩

namespace Catalogued

variable {t : Table} (hc : Catalogued t)
include hc

/-- A write that keeps the meta and each index's meta and field name, and whose records
are old ones or of full size. -/
theorem of_records {t' : Table} (meta : t'.tableMeta = t.tableMeta)
    (shape : t'.indexes.map (fun i => (i.indexMeta, i.fieldMeta.name)) =
      t.indexes.map (fun i => (i.indexMeta, i.fieldMeta.name)))
    (sized : ∀ r ∈ t'.recordHandler.records, r ∈ t.recordHandler.records ∨
      r.data.length = t.tableMeta.recordSize + t.tableMeta.fieldNum) :
    Catalogued t' := by
  have metas : t'.indexes.map (·.indexMeta) = t.indexes.map (·.indexMeta) := by
    simpa [Function.comp_def] using congrArg (List.map Prod.fst) shape
  constructor
  · rw [meta, metas, hc.metas]
  · have names := congrArg (List.map IndexMeta.name) metas
    simp only [List.map_map, Function.comp_def] at names
    rw [names]
    exact hc.indexNames
  · intro ix' hix'
    have mem : (ix'.indexMeta, ix'.fieldMeta.name) ∈
        t.indexes.map (fun i => (i.indexMeta, i.fieldMeta.name)) :=
      shape ▸ List.mem_map_of_mem _ hix'
    obtain ⟨ix, hix, same⟩ := List.mem_map.1 mem
    obtain ⟨hm, hn⟩ := Prod.mk.inj same
    rw [← hm, ← hn]
    exact hc.onField ix hix
  · rw [meta]
    exact hc.fieldNames
  · intro r hr
    rw [meta]
    exact (sized r hr).elim (hc.sized r) id

/-- An index added under a name the meta does not have, with its own meta and field. -/
theorem addIndex {i : Index} {im : IndexMeta} (meta : i.indexMeta = im)
    (fresh : t.tableMeta.index im.name = none) (named : i.fieldMeta.name = im.field) :
    Catalogued { t with tableMeta := t.tableMeta.addIndex im, indexes := t.indexes ++ [i] } := by
  have unused : ∀ ix ∈ t.indexes, ix.indexMeta.name ≠ im.name := fun ix hix e => by
    have := List.find?_eq_none.1 fresh ix.indexMeta (hc.metas ▸ List.mem_map_of_mem _ hix)
    simp [e] at this
  constructor
  · simp [TableMeta.addIndex, hc.metas, meta]
  · simpa [List.nodup_append, meta] using ⟨hc.indexNames, fun ix hix e => unused ix hix e⟩
  · intro ix hix
    rcases List.mem_append.1 hix with old | added
    · exact hc.onField ix old
    · rw [List.mem_singleton.1 added, named, meta]
  · exact hc.fieldNames
  · intro r hr
    simpa [TableMeta.fieldNum] using hc.sized r hr

/-- Every table write keeps the catalogue. -/
theorem step {t' : Table} (step : TableStep t t') : Catalogued t' := by
  cases step with
  | insert _ sized =>
    refine hc.of_records rfl (by simp [Function.comp_def]) fun r hr => ?_
    exact (RecordFileHandler.mem_insert_records hr).imp id fun e => by rw [e]; exact sized
  | remove _ hd =>
    exact hc.of_records rfl (by simp [Function.comp_def]) fun r hr =>
      .inl (RecordFileHandler.mem_of_delete hd hr)
  | replace hg hu sized hlen hpos =>
    refine hc.of_records rfl (List.ext_getElem? fun j => ?_) fun r' hr' => ?_
    · simp only [List.getElem?_map]
      cases hj : t.indexes[j]? with
      | none =>
        rw [List.getElem?_eq_none (hlen ▸ List.getElem?_eq_none_iff.1 hj)]
      | some ix =>
        rcases hpos j ix hj with ⟨same, -⟩ | rekeyed
        · rw [same]
        · rw [rekeyed]
          rfl
    · refine (RecordFileHandler.mem_of_update hu hr').imp id fun e => ?_
      rw [e, sized]
      exact hc.sized _ (RecordFileHandler.get_eq_some_iff.1 hg).1
  | addIndex _ _ meta fresh named => exact hc.addIndex meta fresh named

theorem steps {t' : Table} (steps : Relation.ReflTransGen TableStep t t') : Catalogued t' := by
  induction steps with
  | refl => exact hc
  | tail _ s ih => exact ih.step s

/-- A catalogued table's meta leads `find_index_for_scan` to an index on the field it asked
for. -/
theorem described : Described t where
  names := hc.fieldNames
  onField im him k hk ix hix := by
    rw [hc.metas] at him
    obtain ⟨ix₀, mem₀, rfl⟩ := List.mem_map.1 him
    obtain ⟨lt, name, -⟩ := List.findIdx?_eq_some_iff_getElem.1 hk
    obtain ⟨-, rfl⟩ := List.getElem?_eq_some_iff.1 hix
    have same : t.indexes[k] = ix₀ := List.inj_on_of_nodup_map hc.indexNames
      (List.getElem_mem lt) mem₀ (by simpa using name)
    rw [same]
    exact hc.onField ix₀ mem₀

end Catalogued

/-- In every state that a session of the operations of `IndexedRun`, every call succeeding,
reaches from a catalogued table whose indexes are up to date and on user fields,
`scan_record` with no limit hands over exactly the heap's records that pass the filter and
that the transaction can see, whether it scans the heap or an index: for a filter whose
conditions each read a whole field with the attribute on the left, over a heap of at most
`INT_MAX` records. -/
theorem scanRecord_collect_run {cmp : KeyOrder} {trx : Option Trx} {w w' : World}
    {filter : ConditionFilter} (clean : w.faults = []) (indexed : Indexed w.table)
    (catalogued : Catalogued w.table) (run : IndexedRun cmp w w')
    (fits : w'.table.recordHandler.records.length ≤ intMax)
    (reads : ∀ f ∈ filter.parts, ReadsField w'.table.tableMeta f) :
    ((scanRecord cmp trx collectReader (some filter) (-1) []).run w').1.1 = .success ∧
      ((scanRecord cmp trx collectReader (some filter) (-1) []).run w').1.2.Perm
        (w'.table.recordHandler.records.filter fun r =>
          passes cmp (some filter) r.data && visibleTo trx r.data) := by
  obtain ⟨clean', steps⟩ := run.stepped ⟨clean, indexed⟩
  have hc := catalogued.steps steps
  exact scanRecord_collect_perm cmp trx clean' (indexed.steps steps) hc.described hc.sized fits
    reads

/-- The condition `a > 0`, the attribute on the left. -/
def aGtZero : ConditionFilter :=
  .default ⟨⟨true, 4, 4, 8, .ints, [], false⟩, ⟨false, 0, 0, 0, .ints, intBytes 0, false⟩, .ints,
    .greatThan⟩

/-- `CREATE INDEX ix ON t(a)`, `INSERT INTO t VALUES (5)`, then `SELECT * FROM t WHERE a > 0`:
the scan takes the index and hands over both rows. -/
theorem scanRecord_collect_aGtZero :
    intTableWorld.faults = [] ∧ Indexed intTableWorld.table ∧ Catalogued intTableWorld.table ∧
      (findIndexForScan intOrder ((insertRecordValues none [valueInitInteger 5 false]).run
        indexedWorld).2.table (some aGtZero)).isSome ∧
      ((scanRecord intOrder none collectReader (some aGtZero) (-1) []).run
        ((insertRecordValues none [valueInitInteger 5 false]).run indexedWorld).2).1.1 =
          .success ∧
      ((scanRecord intOrder none collectReader (some aGtZero) (-1) []).run
        ((insertRecordValues none [valueInitInteger 5 false]).run indexedWorld).2).1.2.Perm
        (((insertRecordValues none [valueInitInteger 5 false]).run
          indexedWorld).2.table.recordHandler.records.filter fun r =>
            passes intOrder (some aGtZero) r.data && visibleTo none r.data) :=
  have start : intTableWorld.faults = [] ∧ Indexed intTableWorld.table ∧
      Catalogued intTableWorld.table := by decide
  ⟨start.1, start.2.1, start.2.2, rfl, scanRecord_collect_run start.1 start.2.1 start.2.2
    (.createIndex "ix" "a" (by decide) (by decide)
      (.insert none [valueInitInteger 5 false] (.done _))) (by decide) (by decide)⟩

end Miniob
