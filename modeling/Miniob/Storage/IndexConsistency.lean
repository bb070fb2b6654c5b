import Mathlib.Logic.Relation
import Miniob.Storage.Rollback

/-!
Index/heap consistency (§4.3, §5): every index holds one entry per heap record, keyed by
the bytes of its field, and no other entry. Entries are compared as a multiset: the order
of a B+-tree's leaves is not modelled.

`Indexed` adds that every index is built on a user field. The transaction word in the first
four bytes is then outside every key, so the in-place writes of a transaction (stamping,
marking deleted, clearing the owner) leave every key alone (`Index.key_setTrxWord`).

Each kind of write the table makes to its heap and its indexes keeps `Indexed` as long as
the keys it uses agree with the heap: a record stored and its entry put into every index
(`Indexed.insert`), a record removed and its entry erased from every index
(`Indexed.remove`), a record rewritten in place with each index either keyed alike on the
new bytes or re-keyed (`Indexed.replace`), an index added that holds one entry per record
(`Indexed.addIndex`). `IndexRun` shows which operations make only such writes.

The per-record `update_record` does not re-key every index it should: it looks the index up
with `find_index(attribute_name)`, which compares index names, so an index named other
than its field is never told of the new value (`update_leaves_stale_index_entry`).
-/

namespace Miniob

/-! ### The invariant -/

/-- The entries an index over the heap `h` holds when it is up to date. -/
def Index.expected (i : Index) (h : RecordFileHandler) : List (Bytes × RID) :=
  h.records.map fun r => (i.key r.data, r.rid)

/-- An index holds exactly the entries of the heap's records. -/
def Index.UpToDate (i : Index) (h : RecordFileHandler) : Prop := i.entries.Perm (i.expected h)

/-- Every index holds exactly the entries of the heap's records. -/
def IndexConsistent (t : Table) : Prop :=
  ∀ i ∈ t.indexes, i.entries.Perm (i.expected t.recordHandler)

instance (t : Table) : Decidable (IndexConsistent t) :=
  inferInstanceAs (Decidable (∀ i ∈ t.indexes, _))

/-- The indexes are up to date, and each is built on a user field. -/
structure Indexed (t : Table) : Prop where
  consistent : IndexConsistent t
  userField : ∀ i ∈ t.indexes, i.fieldMeta ∈ t.tableMeta.userFields

instance (t : Table) : Decidable (Indexed t) :=
  decidable_of_iff (IndexConsistent t ∧ ∀ i ∈ t.indexes, i.fieldMeta ∈ t.tableMeta.userFields)
    ⟨fun ⟨c, u⟩ => ⟨c, u⟩, fun ⟨c, u⟩ => ⟨c, u⟩⟩

/-! ### Records as a list with unique addresses -/

section Records

variable {l : List Record} {r : Record} (nd : (l.map (·.rid)).Nodup) (hr : r ∈ l)
include nd hr

/-- Dropping the record at `r`'s address and erasing its image is the same. -/
theorem map_filter_rid_eq_erase {β : Type} [BEq β] [LawfulBEq β] {f : Record → β}
    (hf : ∀ x y, f x = f y → x.rid = y.rid) :
    (l.filter (·.rid != r.rid)).map f = (l.map f).erase (f r) := by
  induction l with
  | nil => cases hr
  | cons x xs ih =>
    rw [List.map_cons, List.nodup_cons] at nd
    have others : ∀ y ∈ xs, y.rid ≠ x.rid := fun y hy e => nd.1 (List.mem_map.2 ⟨y, hy, e⟩)
    by_cases hx : x.rid = r.rid
    · have keep : xs.filter (·.rid != r.rid) = xs :=
        List.filter_eq_self.2 fun y hy => by simpa [← hx] using others y hy
      have : f x = f r := by
        rcases List.mem_cons.1 hr with rfl | hr'
        · rfl
        · exact absurd hx (others r hr').symm
      simp [hx, keep, this]
    · have hr' : r ∈ xs := (List.mem_cons.1 hr).resolve_left fun e => hx (e ▸ rfl)
      have ne : ¬(f x == f r) := by
        simpa using fun e => hx (hf x r e)
      simp [hx, List.erase_cons_tail ne, ih nd.2 hr']

/-- Overwriting the record at `r`'s address with `y` puts `y` in its place. -/
theorem map_update_perm {y : Record} :
    (l.map fun x => if x.rid = r.rid then y else x).Perm (y :: l.filter (·.rid != r.rid)) := by
  induction l with
  | nil => cases hr
  | cons x xs ih =>
    rw [List.map_cons, List.nodup_cons] at nd
    have others : ∀ z ∈ xs, z.rid ≠ x.rid := fun z hz e => nd.1 (List.mem_map.2 ⟨z, hz, e⟩)
    by_cases hx : x.rid = r.rid
    · have keep : xs.filter (·.rid != r.rid) = xs :=
        List.filter_eq_self.2 fun z hz => by simpa [← hx] using others z hz
      have same : xs.map (fun z => if z.rid = r.rid then y else z) = xs :=
        (List.map_congr_left fun z hz => by simp [← hx, others z hz]).trans (List.map_id _)
      simp [hx, keep, same]
    · have hr' : r ∈ xs := (List.mem_cons.1 hr).resolve_left fun e => hx (e ▸ rfl)
      simpa [hx] using ((ih nd.2 hr').cons x).trans (.swap _ _ _)

end Records

/-! ### Keys -/

namespace Index

variable {i : Index}

/-- Two buffers that agree on the bytes of the index's field have one key. -/
theorem key_eq_of_agree {d d' : Bytes}
    (h : ∀ p, i.fieldMeta.offset ≤ p → p < i.fieldMeta.offset + i.fieldMeta.len → d[p]? = d'[p]?) :
    i.key d = i.key d' := by
  simp only [key, readBytes, List.getD_eq_getElem?_getD, List.getElem?_drop]
  refine List.map_congr_left fun p hp => ?_
  have := List.mem_range.1 hp
  rw [h _ (Nat.le_add_right _ _) (by omega)]

/-- A key read past the first four bytes is left alone by the transaction's header
writes. -/
theorem key_setTrxWord (h : 4 ≤ i.fieldMeta.offset) (d : Bytes) (w : Nat) :
    i.key (setTrxWord d w) = i.key d :=
  key_eq_of_agree fun _ hp _ => getElem?_setTrxWord_of_le (by omega)

/-- The per-record update of a field other than the index's, past the trx field, leaves
the key alone: the field's bytes lie outside the key, and its null flag lies in the bitmap
after every field. -/
theorem key_updateField {m : TableMeta} {k : Nat} {field : FieldMeta} (hs : m.sysFieldNum ≤ k)
    (hf : m.field k = some field) (hu : i.fieldMeta ∈ m.userFields) (hne : i.fieldMeta ≠ field)
    (d : Bytes) (value : Value) : i.key (updateField m d k field value) = i.key d := by
  obtain ⟨hk, rfl⟩ := List.getElem?_eq_some_iff.1 hf
  have apart := m.disjoint_of_ne (List.mem_of_mem_drop hu) hk hne
  have below := m.userField_end_le hu
  have sys := m.has_trx_field.1
  refine key_eq_of_agree fun p lo hp => getElem?_updateField_of_ne ?_ ?_
  · omega
  · rw [m.lastFieldEnd_eq]
    omega

/-! ### What each write to the heap does to the entries expected -/

variable {h h' : RecordFileHandler} {r : Record}

theorem expected_insert (stored : Bytes) :
    (i.expected (h.insert stored).2).Perm ((i.key stored, h.freeSlot) :: i.expected h) :=
  (List.perm_orderedInsert _ _ _).map _

theorem expected_delete (hg : h.get r.rid = some r) (hd : h.delete r.rid = some h') :
    i.expected h' = (i.expected h).erase (i.key r.data, r.rid) := by
  rw [expected, RecordFileHandler.records_delete hd]
  exact map_filter_rid_eq_erase h.nodup (RecordFileHandler.get_eq_some_iff.1 hg).1
    fun _ _ e => (Prod.mk.inj e).2

theorem expected_update {d : Bytes} (hg : h.get r.rid = some r) (hu : h.update ⟨r.rid, d⟩ = some h') :
    (i.expected h').Perm ((i.key d, r.rid) :: (i.expected h).erase (i.key r.data, r.rid)) := by
  have mem := (RecordFileHandler.get_eq_some_iff.1 hg).1
  rw [expected, RecordFileHandler.records_update hu, expected,
    ← map_filter_rid_eq_erase h.nodup mem fun _ _ e => (Prod.mk.inj e).2]
  exact (map_update_perm h.nodup mem).map _

/-- An overwrite that keeps the key changes no expected entry. -/
theorem expected_update_of_key {d : Bytes} (hg : h.get r.rid = some r)
    (hu : h.update ⟨r.rid, d⟩ = some h') (hkey : i.key d = i.key r.data) :
    i.expected h' = i.expected h := by
  rw [expected, RecordFileHandler.records_update hu, expected, List.map_map]
  refine List.map_congr_left fun x hx => ?_
  by_cases e : x.rid = r.rid
  · obtain rfl := List.inj_on_of_nodup_map h.nodup hx (RecordFileHandler.get_eq_some_iff.1 hg).1 e
    simp [hkey]
  · simp [e]

/-! ### An index kept up to date by each write -/

theorem UpToDate.insertEntry {data stored : Bytes} (hc : i.UpToDate h)
    (hkey : i.key stored = i.key data) :
    (i.insertEntry data h.freeSlot).UpToDate (h.insert stored).2 := by
  refine (List.perm_orderedInsert _ _ _).trans ?_
  rw [← hkey]
  exact (hc.cons _).trans (expected_insert stored).symm

theorem UpToDate.eraseEntry (hc : i.UpToDate h) (hg : h.get r.rid = some r)
    (hd : h.delete r.rid = some h') : (i.eraseEntry r.data r.rid).UpToDate h' := by
  show (i.entries.erase _).Perm (i.expected h')
  rw [expected_delete hg hd]
  exact perm_erase_of_lawful _ hc

theorem UpToDate.rekey {d : Bytes} (hc : i.UpToDate h) (hg : h.get r.rid = some r)
    (hu : h.update ⟨r.rid, d⟩ = some h') :
    ((i.eraseEntry r.data r.rid).insertEntry d r.rid).UpToDate h' :=
  (List.perm_orderedInsert _ _ _).trans
    (((perm_erase_of_lawful _ hc).cons _).trans (expected_update hg hu).symm)

theorem UpToDate.keep {d : Bytes} (hc : i.UpToDate h) (hg : h.get r.rid = some r)
    (hu : h.update ⟨r.rid, d⟩ = some h') (hkey : i.key d = i.key r.data) : i.UpToDate h' := by
  rwa [UpToDate, expected_update_of_key hg hu hkey]

/-- Folding `insert_entry` over records keeps the index's field and adds one entry per
record. -/
theorem foldl_insertEntry : ∀ (records : List Record) (i : Index),
    (records.foldl (fun i r => i.insertEntry r.data r.rid) i).fieldMeta = i.fieldMeta ∧
      (records.foldl (fun i r => i.insertEntry r.data r.rid) i).entries.Perm
        (i.entries ++ records.map fun r => (i.key r.data, r.rid))
  | [], i => by simp
  | r :: rs, i => by
    obtain ⟨field, perm⟩ := foldl_insertEntry rs (i.insertEntry r.data r.rid)
    refine ⟨field, perm.trans ?_⟩
    simp only [key_insertEntry, List.map_cons]
    exact ((List.perm_orderedInsert _ _ _).append_right _).trans List.perm_middle.symm

theorem fieldMeta_build (im : IndexMeta) (field : FieldMeta) (records : List Record) :
    (Index.build im field records).fieldMeta = field :=
  (foldl_insertEntry records _).1

theorem indexMeta_foldl_insertEntry : ∀ (records : List Record) (i : Index),
    (records.foldl (fun i r => i.insertEntry r.data r.rid) i).indexMeta = i.indexMeta
  | [], _ => rfl
  | r :: rs, i => indexMeta_foldl_insertEntry rs (i.insertEntry r.data r.rid)

theorem indexMeta_build (im : IndexMeta) (field : FieldMeta) (records : List Record) :
    (Index.build im field records).indexMeta = im :=
  indexMeta_foldl_insertEntry records _

/-- The index `create_index` builds over the heap is up to date. -/
theorem UpToDate.build (im : IndexMeta) (field : FieldMeta) (h : RecordFileHandler) :
    (Index.build im field h.records).UpToDate h := by
  have hkey : (Index.build im field h.records).key = Index.key ⟨im, field, []⟩ := by
    funext d
    simp only [key, fieldMeta_build]
  rw [UpToDate, expected, hkey]
  exact (foldl_insertEntry h.records _).2

end Index

/-! ### The table kept `Indexed` by each kind of write -/

namespace Indexed

variable {t : Table} (hI : Indexed t)
include hI

/-- An up-to-date index holds the entry of every record of the heap. -/
theorem mem_entries {r : Record} {i : Index} (hr : r ∈ t.recordHandler.records)
    (hi : i ∈ t.indexes) : (i.key r.data, r.rid) ∈ i.entries :=
  (hI.consistent i hi).mem_iff.2 (List.mem_map.2 ⟨r, hr, rfl⟩)

/-- A record stored at the first free slot and its entry put into every index, keyed alike
in the caller's buffer and in the stored copy. -/
theorem insert {data stored : Bytes} (hkey : ∀ i ∈ t.indexes, i.key stored = i.key data) :
    Indexed { t with
      recordHandler := (t.recordHandler.insert stored).2
      indexes := t.indexes.map (·.insertEntry data t.recordHandler.freeSlot) } := by
  constructor
  · intro i' hi'
    obtain ⟨i, hi, rfl⟩ := List.mem_map.1 hi'
    exact Index.UpToDate.insertEntry (hI.consistent i hi) (hkey i hi)
  · intro i' hi'
    obtain ⟨i, hi, rfl⟩ := List.mem_map.1 hi'
    exact hI.userField i hi

/-- A record taken out of the heap and its entry erased from every index. -/
theorem remove {r : Record} {h' : RecordFileHandler} (hg : t.recordHandler.get r.rid = some r)
    (hd : t.recordHandler.delete r.rid = some h') :
    Indexed { t with recordHandler := h', indexes := t.indexes.map (·.eraseEntry r.data r.rid) } := by
  constructor
  · intro i' hi'
    obtain ⟨i, hi, rfl⟩ := List.mem_map.1 hi'
    exact Index.UpToDate.eraseEntry (hI.consistent i hi) hg hd
  · intro i' hi'
    obtain ⟨i, hi, rfl⟩ := List.mem_map.1 hi'
    exact hI.userField i hi

/-- A record rewritten in place, each index at its position either kept, when its key is
the same on the new bytes, or re-keyed. -/
theorem replace {r : Record} {d : Bytes} {h' : RecordFileHandler}
    (hg : t.recordHandler.get r.rid = some r) (hu : t.recordHandler.update ⟨r.rid, d⟩ = some h')
    {indexes : List Index} (hlen : indexes.length = t.indexes.length)
    (hpos : ∀ (j : Nat) (ix : Index), t.indexes[j]? = some ix →
      (indexes[j]? = some ix ∧ ix.key d = ix.key r.data) ∨
        indexes[j]? = some ((ix.eraseEntry r.data r.rid).insertEntry d r.rid)) :
    Indexed { t with recordHandler := h', indexes := indexes } := by
  have at_pos : ∀ i ∈ indexes, ∃ ix ∈ t.indexes, i.fieldMeta = ix.fieldMeta ∧ i.UpToDate h' := by
    intro i hi
    obtain ⟨j, hj⟩ := List.mem_iff_getElem?.1 hi
    obtain ⟨lt, -⟩ := List.getElem?_eq_some_iff.1 hj
    obtain ⟨ix, hix⟩ : ∃ ix, t.indexes[j]? = some ix :=
      ⟨_, List.getElem?_eq_getElem (hlen ▸ lt)⟩
    have hc : ix.UpToDate t.recordHandler := hI.consistent ix (List.getElem?_mem hix)
    rcases hpos j ix hix with ⟨same, hkey⟩ | rekeyed
    · obtain rfl := Option.some.inj (hj.symm.trans same)
      exact ⟨i, List.getElem?_mem hix, rfl, hc.keep hg hu hkey⟩
    · obtain rfl := Option.some.inj (hj.symm.trans rekeyed)
      exact ⟨ix, List.getElem?_mem hix, rfl, hc.rekey hg hu⟩
  constructor
  · intro i hi
    obtain ⟨-, -, -, hc⟩ := at_pos i hi
    exact hc
  · intro i hi
    obtain ⟨ix, hix, field, -⟩ := at_pos i hi
    rw [field]
    exact hI.userField ix hix

/-- An index that holds one entry per record, on a user field, added to the table. -/
theorem addIndex {i : Index} (hc : i.UpToDate t.recordHandler)
    (hu : i.fieldMeta ∈ t.tableMeta.userFields) (im : IndexMeta) :
    Indexed { t with tableMeta := t.tableMeta.addIndex im, indexes := t.indexes ++ [i] } := by
  constructor
  · intro i' hi'
    rcases List.mem_append.1 hi' with old | added
    · exact hI.consistent i' old
    · rw [List.mem_singleton.1 added]
      exact hc
  · intro i' hi'
    rcases List.mem_append.1 hi' with old | added
    · exact hI.userField i' old
    · rw [List.mem_singleton.1 added]
      exact hu

end Indexed

/-! ### The writes, as one relation -/

/-- The writes the table's operations make, each with what it needs of the keys and of the
record's size: a record stored at the first free slot with its entry put into every index;
a current record removed with its entry erased from every index; a current record rewritten
in place by bytes of its size, each index kept or re-keyed; an index on a user field that
holds one entry per record, added under a name the meta does not have yet. -/
inductive TableStep : Table → Table → Prop
  | insert {t : Table} {data stored : Bytes} (hkey : ∀ i ∈ t.indexes, i.key stored = i.key data)
      (sized : stored.length = t.tableMeta.recordSize + t.tableMeta.fieldNum) :
      TableStep t { t with
        recordHandler := (t.recordHandler.insert stored).2
        indexes := t.indexes.map (·.insertEntry data t.recordHandler.freeSlot) }
  | remove {t : Table} {r : Record} {h' : RecordFileHandler}
      (hg : t.recordHandler.get r.rid = some r) (hd : t.recordHandler.delete r.rid = some h') :
      TableStep t { t with recordHandler := h', indexes := t.indexes.map (·.eraseEntry r.data r.rid) }
  | replace {t : Table} {r : Record} {d : Bytes} {h' : RecordFileHandler} {indexes : List Index}
      (hg : t.recordHandler.get r.rid = some r) (hu : t.recordHandler.update ⟨r.rid, d⟩ = some h')
      (sized : d.length = r.data.length) (hlen : indexes.length = t.indexes.length)
      (hpos : ∀ (j : Nat) (ix : Index), t.indexes[j]? = some ix →
        (indexes[j]? = some ix ∧ ix.key d = ix.key r.data) ∨
          indexes[j]? = some ((ix.eraseEntry r.data r.rid).insertEntry d r.rid)) :
      TableStep t { t with recordHandler := h', indexes := indexes }
  | addIndex {t : Table} {i : Index} {im : IndexMeta} (hc : i.UpToDate t.recordHandler)
      (hu : i.fieldMeta ∈ t.tableMeta.userFields) (meta : i.indexMeta = im)
      (fresh : t.tableMeta.index im.name = none) (named : i.fieldMeta.name = im.field) :
      TableStep t { t with tableMeta := t.tableMeta.addIndex im, indexes := t.indexes ++ [i] }

theorem Indexed.step {t t' : Table} (hI : Indexed t) (step : TableStep t t') : Indexed t' := by
  cases step with
  | insert hkey _ => exact hI.insert hkey
  | remove hg hd => exact hI.remove hg hd
  | replace hg hu _ hlen hpos => exact hI.replace hg hu hlen hpos
  | addIndex hc hu _ _ _ => exact hI.addIndex hc hu _

theorem Indexed.steps {t t' : Table} (hI : Indexed t) (steps : Relation.ReflTransGen TableStep t t') :
    Indexed t' := by
  induction steps with
  | refl => exact hI
  | tail _ step ih => exact ih.step step

/-- A current record's trx word rewritten in place: no key of an `Indexed` table reads it. -/
theorem TableStep.rewriteTrxWord {t : Table} (hI : Indexed t) {r : Record} {n : Nat}
    {h' : RecordFileHandler} (hg : t.recordHandler.get r.rid = some r)
    (hu : t.recordHandler.update ⟨r.rid, setTrxWord r.data n⟩ = some h') :
    TableStep t { t with recordHandler := h' } :=
  .replace hg hu (length_setTrxWord _ _) rfl fun _ ix hix => .inl ⟨hix, Index.key_setTrxWord
    (t.tableMeta.four_le_offset (hI.userField ix (List.getElem?_mem hix))) _ _⟩

/-! ### Where the per-record update breaks it -/

/-- `t` once `CREATE INDEX ix ON t(a)` has run: the index holds the key of `a = 1`. -/
def indexedWorld : World := ((createIndex intOrder none "ix" "a").run intTableWorld).2

/-- Index `ix` on `t.a`, then `UPDATE t SET a = 2`. The index is up to date after
`CREATE INDEX`; after the update, which succeeds, it still holds the key `1` for the row
that now holds `2`. -/
theorem update_leaves_stale_index_entry :
    ((createIndex intOrder none "ix" "a").run intTableWorld).1 = .success ∧
      IndexConsistent indexedWorld.table ∧
      let updated := (updateRecord intOrder none "a" (valueInitInteger 2 false) []).run indexedWorld
      updated.1 = (.success, 1) ∧
      updated.2.table.recordHandler.records = [⟨⟨0, 0⟩, [0, 0, 0, 0, 2, 0, 0, 0, 0, 0]⟩] ∧
      updated.2.table.indexes.map (·.entries) = [[([1, 0, 0, 0], ⟨0, 0⟩)]] ∧
      ¬IndexConsistent updated.2.table := by
  decide

end Miniob
