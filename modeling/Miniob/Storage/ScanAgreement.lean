import Miniob.Storage.IndexConsistency

/-!
What `scan_record` hands to its reader, on each of its two paths (`table.cpp`).

The index path is taken whenever `find_index_for_scan` finds an index on the attribute a
condition compares with a literal. With every call succeeding, the index loop is the heap
loop over the records its rids name (`scanIndex_run_eq_scanHeap`). With the attribute on
the left, an up-to-date index whose meta names its field, and a condition that reads the
whole field, the index's scanner yields every record that passes the condition, so either
path runs the reader over the records of the heap that pass the filter, in some order
(`scanRecord_run_perm`). That lemma asks the reader to write no index: the scanner is the
rid list taken when it is created (`Index.createScanner`), and a cursor over the live tree
yields the same rids only while the index it walks is not written. The readers it serves
here, the collecting reader and the transactional deleter, write none. A reader that
collects what it is given thus gets the same records on both paths
(`scanRecord_collect_perm`). When the literal stands on the left, `find_index_for_scan`
swaps the two sides but keeps the operator, so `0 < a` becomes a scan of the keys below `0`
(`mirrored_condition_scans_wrong_range`).

With a positive limit the two paths part (`scanRecord_run_of_limit`): the heap loop counts
the records it hands over, the index loop every rid it reads, so on the index path rows the
transaction cannot see or the filter rejects use up the limit too.
-/

namespace Miniob

/-- A reader that collects the records it is handed and never fails. -/
def collectReader (r : Record) (acc : List Record) : Exec (RC × List Record) :=
  pure (.success, acc ++ [r])

variable (cmp : KeyOrder) (trx : Option Trx)

/-- The heap loop hands over the visible records of its list in order, up to the limit. -/
theorem scanHeap_collect (limit : Nat) :
    ∀ (rs : List Record) (count : Nat) (acc : List Record) (w : World),
      (scanHeap trx collectReader limit rs count acc).run w =
        ((.success, acc ++ (rs.filter fun r => visibleTo trx r.data).take (limit - count)), w)
  | [], _, acc, w => by simp [scanHeap]
  | r :: rs, count, acc, w => by
    unfold scanHeap
    by_cases hc : count < limit
    · cases hv : visibleTo trx r.data
      · simp only [hc, hv, if_true, Bool.false_eq_true, if_false, scanHeap_collect,
          List.filter_cons]
      · simp only [hc, hv, if_true, collectReader, StateT.run_bind, StateT.run_pure,
          Id.pure_eq, Id.bind_eq, ne_eq, not_true_eq_false, if_false, scanHeap_collect,
          List.filter_cons, List.append_assoc, List.singleton_append]
        rw [show limit - count = limit - (count + 1) + 1 by omega, List.take_succ_cons]
    · simp [hc, show limit - count = 0 by omega]

/-- The conditions of a filter: the filter itself, or each filter of a composite. -/
def ConditionFilter.parts : ConditionFilter → List DefaultConditionFilter
  | .default f => [f]
  | .composite fs => fs

theorem passes_some_iff (filter : ConditionFilter) (data : Bytes) :
    passes cmp (some filter) data = true ↔ ∀ f ∈ filter.parts, f.filter cmp data = true := by
  cases filter <;> simp [passes, ConditionFilter.filter, ConditionFilter.parts]

/-- An up-to-date index's scanner yields, in some order, the rids of the records whose key
stands in `op` to `value`. -/
theorem Index.UpToDate.createScanner {i : Index} {h : RecordFileHandler} (hc : i.UpToDate h)
    (op : CompOp) (value : Bytes) :
    (i.createScanner cmp op value).Perm ((h.records.filter fun r =>
      op.holds (cmp i.fieldMeta.type (i.key r.data) value)).map (·.rid)) := by
  have := (hc.filter fun e => op.holds (cmp i.fieldMeta.type e.1 value)).map Prod.snd
  simpa [Index.createScanner, Index.expected, List.filter_map, Function.comp_def] using this

/-- Every rid the scanner of an up-to-date index yields names a record of the heap. -/
theorem Index.UpToDate.get_isSome {i : Index} {h : RecordFileHandler} (hc : i.UpToDate h)
    {op : CompOp} {value : Bytes} {rid : RID} (hrid : rid ∈ i.createScanner cmp op value) :
    (h.get rid).isSome := by
  obtain ⟨r, hr, rfl⟩ := List.mem_map.1 ((hc.createScanner cmp op value).mem_iff.1 hrid)
  simp [RecordFileHandler.get_eq_some_iff.2 ⟨(List.mem_filter.1 hr).1, rfl⟩]

/-- Fetching the rids of heap records gives the records back. -/
theorem filterMap_get_rids {h : RecordFileHandler} {rs : List Record}
    (sub : ∀ r ∈ rs, r ∈ h.records) : (rs.map (·.rid)).filterMap h.get = rs := by
  rw [List.filterMap_map]
  conv_rhs => rw [← List.filterMap_some rs]
  exact List.filterMap_congr fun r hr => RecordFileHandler.get_eq_some_iff.2 ⟨sub r hr, rfl⟩

theorem Index.key_eq_slice {i : Index} {data : Bytes}
    (h : i.fieldMeta.offset + i.fieldMeta.len ≤ data.length) :
    i.key data = slice data i.fieldMeta.offset i.fieldMeta.len := by
  rw [Index.key, readBytes_of_le (by simp; omega), slice]

/-- The meta names each index by the field it is built on, and no two fields share a name:
`find_index_by_field` then leads to an index on the field it was asked for. -/
structure Described (t : Table) : Prop where
  names : (t.tableMeta.fields.map (·.name)).Nodup
  onField : ∀ im ∈ t.tableMeta.indexes, ∀ k ∈ findIndex t im.name, ∀ ix ∈ t.indexes[k]?,
    ix.fieldMeta.name = im.field

instance (t : Table) : Decidable (Described t) :=
  decidable_of_iff ((t.tableMeta.fields.map (·.name)).Nodup ∧
    ∀ im ∈ t.tableMeta.indexes, ∀ k ∈ findIndex t im.name, ∀ ix ∈ t.indexes[k]?,
      ix.fieldMeta.name = im.field) ⟨fun ⟨n, o⟩ => ⟨n, o⟩, fun ⟨n, o⟩ => ⟨n, o⟩⟩

/-- A condition that the index path reads as the filter does: an attribute stands on the
left, and it reads the whole field at its offset, compared as that field's type. -/
def ReadsField (m : TableMeta) (f : DefaultConditionFilter) : Prop :=
  (f.right.isAttr → f.left.isAttr) ∧ (f.left.isAttr →
    ∀ fm ∈ m.findFieldByOffset f.left.attrOffset, f.left.attrLength = fm.len ∧ f.attrType = fm.type)

instance (m : TableMeta) (f : DefaultConditionFilter) : Decidable (ReadsField m f) :=
  inferInstanceAs (Decidable (_ ∧ _))

section Sound

variable {t : Table} (hI : Indexed t) (desc : Described t)
include hI desc

/-- The scanner `find_index_for_scan` builds for one condition read as the filter does
comes from an index of the table, and every record long enough that passes the condition
stands in the scanner's relation to its value. -/
theorem findIndexForScanDefault_sound {f : DefaultConditionFilter} {rids : List RID}
    (reads : ReadsField t.tableMeta f) (found : findIndexForScanDefault cmp t f = some rids) :
    ∃ ix ∈ t.indexes, rids = ix.createScanner cmp f.compOp f.right.value ∧
      ∀ data, t.tableMeta.nullFieldIndex ≤ data.length → f.filter cmp data = true →
        f.compOp.holds (cmp ix.fieldMeta.type (ix.key data) f.right.value) = true := by
  obtain ⟨unmirrored, whole⟩ := reads
  cases hl : f.left.isAttr <;> cases hr : f.right.isAttr
  · simp [findIndexForScanDefault, hl, hr] at found
  · exact absurd (unmirrored hr) (by simp [hl])
  · simp only [findIndexForScanDefault, hl, hr, Bool.not_false, Bool.and_self, if_true,
      Option.bind_eq_bind, Option.some_bind, Option.bind_eq_some] at found
    obtain ⟨fm, hfm, im, him, k, hk, ix, hix, scanned⟩ := found
    obtain rfl := (Option.some.inj scanned).symm
    have fmMem : fm ∈ t.tableMeta.fields := List.mem_of_find?_eq_some hfm
    have fmOffset : fm.offset = f.left.attrOffset := by simpa using List.find?_some hfm
    have imField : im.field = fm.name := by simpa using List.find?_some him
    have ixMem : ix ∈ t.indexes := List.getElem?_mem hix
    have user := hI.userField ix ixMem
    have same : ix.fieldMeta = fm := List.inj_on_of_nodup_map desc.names
      (List.mem_of_mem_drop user) fmMem
      ((desc.onField im (List.mem_of_find?_eq_some him) k hk ix hix).trans imField)
    obtain ⟨len, type⟩ := whole hl fm hfm
    refine ⟨ix, ixMem, rfl, fun data long pass => ?_⟩
    have inside := t.tableMeta.userField_end_le user
    simp only [DefaultConditionFilter.filter, ConDesc.read, hl, hr, if_true, Bool.false_eq_true,
      if_false, Bool.and_eq_true] at pass
    rw [Index.key_eq_slice (by omega), same, fmOffset, ← len, ← type]
    exact pass.2
  · simp [findIndexForScanDefault, hl, hr] at found

/-- The same for a whole filter: the scanner comes from one of its conditions. -/
theorem findIndexForScan_sound {filter : ConditionFilter} {rids : List RID}
    (reads : ∀ f ∈ filter.parts, ReadsField t.tableMeta f)
    (found : findIndexForScan cmp t (some filter) = some rids) :
    ∃ ix ∈ t.indexes, ∃ op value, rids = ix.createScanner cmp op value ∧
      ∀ data, t.tableMeta.nullFieldIndex ≤ data.length → passes cmp (some filter) data = true →
        op.holds (cmp ix.fieldMeta.type (ix.key data) value) = true := by
  obtain ⟨f, hf, found⟩ : ∃ f ∈ filter.parts, findIndexForScanDefault cmp t f = some rids := by
    cases filter with
    | default f => exact ⟨f, List.mem_singleton_self f, found⟩
    | composite fs => exact List.exists_of_findSome?_eq_some found
  obtain ⟨ix, mem, rfl, holds⟩ := findIndexForScanDefault_sound cmp hI desc (reads f hf) found
  exact ⟨ix, mem, _, _, rfl, fun data long pass =>
    holds data long ((passes_some_iff cmp filter data).1 pass f hf)⟩

end Sound

/-! ### Both paths as one heap loop -/

section Paths

variable {σ : Type} {reader : Record → σ → Exec (RC × σ)} {I : World → Prop}
  (clean : ∀ w, I w → w.faults = [])
  (keep : ∀ r ctx w, I w → Current w r → visibleTo trx r.data = true →
    I ((reader r ctx).run w).2 ∧ (∀ rid, rid ≠ r.rid →
      ((reader r ctx).run w).2.table.recordHandler.get rid = w.table.recordHandler.get rid) ∧
    ((reader r ctx).run w).2.table.indexes = w.table.indexes)
include clean keep

/-- Whichever path `scan_record` takes, a scan with no limit runs as the heap loop over
the records of the heap that pass the filter, in some order: in scan order on the heap
path, in the scanner's order on the index path. This asks that every call succeed, that the
reader keep `I`, leave the records at other addresses alone and write no index, that the
indexes be up to date and described by the meta, that records have their full size, and
that each condition read as the filter does, with its attribute on the left.

The reader must leave the indexes alone because the scanner is the rid list taken when it
is created: a cursor over the live tree yields the same rids only while nothing writes the
index it walks. -/
theorem scanRecord_run_perm {w : World} {filter : ConditionFilter} (hI : I w)
    (indexed : Indexed w.table) (desc : Described w.table) (sized : RecordSized w.table)
    (fits : w.table.recordHandler.records.length ≤ intMax)
    (reads : ∀ f ∈ filter.parts, ReadsField w.table.tableMeta f) (ctx : σ) :
    ∃ rs, rs.Perm (w.table.recordHandler.records.filter fun r => passes cmp (some filter) r.data) ∧
      (scanRecord cmp trx reader (some filter) (-1) ctx).run w =
        (scanHeap trx reader intMax rs 0 ctx).run w := by
  cases hfind : findIndexForScan cmp w.table (some filter) with
  | none => exact ⟨_, .refl _, scanRecord_run_of_heap cmp trx reader (clean w hI) hfind ctx⟩
  | some rids =>
  obtain ⟨ix, mem, op, value, rfl, holds⟩ := findIndexForScan_sound cmp indexed desc reads hfind
  have scanner := Index.UpToDate.createScanner cmp (indexed.consistent ix mem) op value
  have sub : ∀ r ∈ w.table.recordHandler.records.filter (fun r =>
      op.holds (cmp ix.fieldMeta.type (ix.key r.data) value)), r ∈ w.table.recordHandler.records :=
    fun r hr => (List.mem_filter.1 hr).1
  have resolves : ∀ rid ∈ ix.createScanner cmp op value,
      (w.table.recordHandler.get rid).isSome :=
    fun _ => Index.UpToDate.get_isSome cmp (indexed.consistent ix mem)
  have short : 0 + (ix.createScanner cmp op value).length ≤ intMax := by
    rw [scanner.length_eq, List.length_map, Nat.zero_add]
    exact (List.length_filter_le _ _).trans fits
  have fetched := scanner.filterMap w.table.recordHandler.get
  rw [filterMap_get_rids sub] at fetched
  -- every record that passes the filter is one the scanner yields
  have narrowed : ((w.table.recordHandler.records.filter fun r =>
      op.holds (cmp ix.fieldMeta.type (ix.key r.data) value)).filter fun r =>
        passes cmp (some filter) r.data) =
      w.table.recordHandler.records.filter fun r => passes cmp (some filter) r.data := by
    rw [List.filter_filter]
    refine List.filter_congr fun r hr => ?_
    cases hp : passes cmp (some filter) r.data
    · rfl
    · simp [holds r.data (sized.nullFieldIndex_le hr) hp]
  refine ⟨_, narrowed ▸ fetched.filter _, ?_⟩
  simp only [scanRecord, show (-1 : Int) ≠ 0 by decide, if_false, show (-1 : Int) < 0 by decide,
    if_true, StateT.run_bind, StateT.run_get, Id.pure_eq, Id.bind_eq, hfind]
  exact scanIndex_run_eq_scanHeap cmp trx clean
    (fun r ctx w hI cur vis => (keep r ctx w hI cur vis).imp_right And.left)
    (some filter) intMax _ 0 0 ctx w hI
    (scanner.nodup_iff.2 (w.table.recordHandler.nodup.sublist ((List.filter_sublist _).map _)))
    resolves short short

end Paths

/-- Whichever path `scan_record` takes, a scan with no limit hands over exactly the records
of the heap that pass the filter and that the transaction can see: in scan order on the
heap path, in the scanner's order on the index path. -/
theorem scanRecord_collect_perm {w : World} {filter : ConditionFilter} (clean : w.faults = [])
    (hI : Indexed w.table) (desc : Described w.table) (sized : RecordSized w.table)
    (fits : w.table.recordHandler.records.length ≤ intMax)
    (reads : ∀ f ∈ filter.parts, ReadsField w.table.tableMeta f) :
    ((scanRecord cmp trx collectReader (some filter) (-1) []).run w).1.1 = .success ∧
      ((scanRecord cmp trx collectReader (some filter) (-1) []).run w).1.2.Perm
        (w.table.recordHandler.records.filter fun r =>
          passes cmp (some filter) r.data && visibleTo trx r.data) := by
  obtain ⟨rs, perm, run⟩ := @scanRecord_run_perm cmp trx _ collectReader (·.faults = [])
    (fun _ => id) (fun _ _ _ h _ _ => ⟨h, fun _ _ => rfl, rfl⟩) w filter clean hI desc sized fits reads []
  rw [run, scanHeap_collect, List.nil_append, List.take_of_length_le]
  · refine ⟨rfl, (perm.filter _).trans ?_⟩
    rw [List.filter_filter]
    exact .of_eq (List.filter_congr fun r _ => Bool.and_comm _ _)
  · calc (rs.filter fun r => visibleTo trx r.data).length
        ≤ rs.length := List.length_filter_le _ _
      _ = _ := perm.length_eq
      _ ≤ w.table.recordHandler.records.length := List.length_filter_le _ _
      _ ≤ intMax - 0 := fits

/-- The condition `0 < a`, the literal on the left. -/
def zeroLtA : ConditionFilter :=
  .default ⟨⟨false, 0, 0, 0, .ints, intBytes 0, false⟩, ⟨true, 4, 4, 8, .ints, [], false⟩, .ints,
    .lessThan⟩

/-- `SELECT * FROM t WHERE 0 < a` on `t` holding `a = 1`, with its index `ix` up to date:
one record of the heap is visible and passes the filter, the scan takes the index, and it
hands over no record. -/
theorem mirrored_condition_scans_wrong_range :
    IndexConsistent indexedWorld.table ∧
      (indexedWorld.table.recordHandler.records.filter fun r =>
        passes intOrder (some zeroLtA) r.data).length = 1 ∧
      (findIndexForScan intOrder indexedWorld.table (some zeroLtA)).isSome ∧
      ((scanRecord intOrder none collectReader (some zeroLtA) (-1) []).run indexedWorld).1 =
        (.success, []) := by
  decide

/-! ### A positive limit -/

/-- Every scanner `find_index_for_scan` builds is one of an index of the table. -/
theorem findIndexForScanDefault_scanner {t : Table} {f : DefaultConditionFilter}
    {rids : List RID} (found : findIndexForScanDefault cmp t f = some rids) :
    ∃ ix ∈ t.indexes, ∃ value, rids = ix.createScanner cmp f.compOp value := by
  unfold findIndexForScanDefault at found
  split_ifs at found <;>
    simp only [Option.bind_eq_bind, Option.some_bind, Option.none_bind, Option.bind_eq_some] at found <;>
    obtain ⟨_, _, _, _, _, _, ix, hix, scanned⟩ := found <;>
    exact ⟨ix, List.getElem?_mem hix, _, (Option.some.inj scanned).symm⟩

theorem findIndexForScan_scanner {t : Table} {filter : Option ConditionFilter} {rids : List RID}
    (found : findIndexForScan cmp t filter = some rids) :
    ∃ ix ∈ t.indexes, ∃ op value, rids = ix.createScanner cmp op value := by
  obtain ⟨f, found⟩ : ∃ f, findIndexForScanDefault cmp t f = some rids := by
    rcases filter with _ | f | fs
    · cases found
    · exact ⟨f, found⟩
    · obtain ⟨f, -, found⟩ := List.exists_of_findSome?_eq_some found
      exact ⟨f, found⟩
  obtain ⟨ix, mem, value, rfl⟩ := findIndexForScanDefault_scanner cmp found
  exact ⟨ix, mem, _, _, rfl⟩

section Limit

variable {σ : Type} {reader : Record → σ → Exec (RC × σ)} {w : World} {f : Record → σ → σ}
  (pure_reader : ∀ r ctx, (reader r ctx).run w = ((.success, f r ctx), w))
include pure_reader

/-- With a positive limit `n` the two paths of `scan_record` count differently. The heap
loop counts the records it hands to the reader and stops after `n` of them; the index loop
counts every rid the scanner yields, whether or not its record is visible and passes the
filter, and stops after `n` rids. So a reader that succeeds and leaves the world alone (the
adapter around a `record_reader` that returns nothing is one) is folded over the first `n`
visible records that pass the filter on the heap path, and over those among the records the
first `n` rids name on the index path. This asks that every call succeed and that the
indexes be up to date. -/
theorem scanRecord_run_of_limit {filter : Option ConditionFilter} (hnil : w.faults = [])
    (indexed : Indexed w.table) {n : Nat} (pos : 0 < n) (ctx : σ) :
    (findIndexForScan cmp w.table filter = none →
      (scanRecord cmp trx reader filter n ctx).run w =
        ((.success, (((w.table.recordHandler.records.filter fun r => passes cmp filter r.data).filter
          fun r => visibleTo trx r.data).take n).foldl (fun c r => f r c) ctx), w)) ∧
    ∀ rids, findIndexForScan cmp w.table filter = some rids →
      (scanRecord cmp trx reader filter n ctx).run w =
        ((.success, (((rids.take n).filterMap w.table.recordHandler.get).filter fun r =>
          visibleTo trx r.data && passes cmp filter r.data).foldl (fun c r => f r c) ctx), w) := by
  simp only [scanRecord, eq_false (show (n : Int) ≠ 0 by omega),
    eq_false (show ¬(n : Int) < 0 by omega), if_false, Int.toNat_ofNat, StateT.run_bind,
    StateT.run_get, Id.pure_eq, Id.bind_eq]
  refine ⟨fun noIndex => ?_, fun rids found => ?_⟩
  · simp only [noIndex, StateT.run_bind, call_run_of_nil hnil, StateT.run_pure, Id.pure_eq,
      Id.bind_eq, ne_eq, not_true_eq_false, if_false]
    rw [scanHeap_fold trx pure_reader, Nat.sub_zero]
  · obtain ⟨ix, mem, op, value, rfl⟩ := findIndexForScan_scanner cmp found
    rw [found, scanIndex_fold trx pure_reader cmp hnil _ _ _ _ _
      fun _ => Index.UpToDate.get_isSome cmp (indexed.consistent ix mem), Nat.sub_zero]

end Limit

/-- The conditions `a > 0 AND a > 3`, each with the attribute on the left. -/
def aGtZeroGtThree : ConditionFilter :=
  .composite [⟨⟨true, 4, 4, 8, .ints, [], false⟩, ⟨false, 0, 0, 0, .ints, intBytes 0, false⟩,
    .ints, .greatThan⟩,
    ⟨⟨true, 4, 4, 8, .ints, [], false⟩, ⟨false, 0, 0, 0, .ints, intBytes 3, false⟩, .ints,
      .greatThan⟩]

/-- `t` with its index on `a`, holding `a = 1` and `a = 5`. -/
def indexedTwoRowWorld : World :=
  ((insertRecordValues none [valueInitInteger 5 false]).run indexedWorld).2

/-- `SELECT * FROM t WHERE a > 0 AND a > 3` with a limit of one, on `indexedTwoRowWorld`:
the index serves `a > 0` and yields the row `a = 1` first, which fails `a > 3` and uses up
the limit, so the scan hands over no row, while the one row that passes the filter is
`a = 5`. -/
theorem scanRecord_run_of_limit_aGtZeroGtThree :
    indexedTwoRowWorld.faults = [] ∧ Indexed indexedTwoRowWorld.table ∧ 0 < 1 ∧
      (indexedTwoRowWorld.table.recordHandler.records.filter fun r =>
        passes intOrder (some aGtZeroGtThree) r.data).map (·.rid) = [⟨0, 1⟩] ∧
      ((scanRecord intOrder none collectReader (some aGtZeroGtThree) 1 []).run
        indexedTwoRowWorld).1 = (.success, []) := by
  have found : findIndexForScan intOrder indexedTwoRowWorld.table (some aGtZeroGtThree) =
      some [⟨0, 0⟩, ⟨0, 1⟩] := by decide
  refine ⟨rfl, by decide, by decide, by decide, ?_⟩
  exact (congrArg Prod.fst ((@scanRecord_run_of_limit intOrder none _ collectReader
    indexedTwoRowWorld (fun r acc => acc ++ [r]) (fun _ _ => rfl) _ rfl (by decide) 1 (by decide)
    []).2 _ found)).trans (by decide)

end Miniob
