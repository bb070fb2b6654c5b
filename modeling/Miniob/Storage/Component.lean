import Mathlib.Data.List.Sort
import Miniob.Storage.Record

/-!
The collaborators `Table` calls, and the state they act on.

Modelled from the spec: `record_manager.cpp`, `bplus_tree_index.cpp` and `trx.cpp` are
not in the sources. §4.2 gives the record manager: records addressed by `RID = (page,
slot)`, an insert taking the first free slot of the first page that has one (a new page
when none does), deletes freeing the slot, scans going page by page. §4.3 gives the
index: `(key, rid)` entries keyed by the bytes of one field, `insert_entry` and
`delete_entry` extracting the key from the record, `delete_entry` of an absent entry
answering `RECORD_INVALID_KEY`. §4.6 gives the transaction's operation log.

Every call `Table` makes to one of them may fail. `World.faults` is the environment's
choice, one outcome per call in the order the calls happen: `success` lets the call do
its work, any other code makes it fail with that code and change nothing; an exhausted
list means every later call succeeds. A theorem over every fault list is a theorem over
every success/failure outcome of the collaborators.

An index is the list of its entries, kept in one fixed order: by key bytes, compared
byte-wise, then by rid (§4.3's tie-break). The B+-tree's typed key order, its nodes,
pages, the buffer pool and files are not modelled. The results compare entries as a
multiset or undo an insertion exactly, which holds in any order; only a concrete scan with
a positive limit on the index path depends on the order (see `Scan`).
-/

namespace Miniob

/-- `RID`: a record's page and slot. -/
structure RID where
  pageNum : Nat
  slotNum : Nat
  deriving DecidableEq, Repr

/-- `Record`: a record's address and its bytes. -/
structure Record where
  rid : RID
  data : Bytes
  deriving DecidableEq, Repr

/-- Scan order on addresses: page by page, slot by slot. -/
def RID.Le (a b : RID) : Prop :=
  a.pageNum < b.pageNum ∨ (a.pageNum = b.pageNum ∧ a.slotNum ≤ b.slotNum)

instance : DecidableRel RID.Le := fun _ _ => inferInstanceAs (Decidable (_ ∨ _))

theorem RID.le_refl (a : RID) : a.Le a := .inr ⟨rfl, Nat.le_refl _⟩

/-! ### The record manager -/

/-- `RecordFileHandler`: the live records of a data file, in scan order, no two at one
address. -/
@[ext]
structure RecordFileHandler where
  recordCapacity : Nat
  records : List Record
  capacity_pos : 0 < recordCapacity
  nodup : (records.map (·.rid)).Nodup

namespace RecordFileHandler

variable (h : RecordFileHandler)

/-- The addresses in use. -/
def rids : List RID := h.records.map (·.rid)

/-- The slot with linear number `k`: page `k / capacity`, slot `k % capacity`. -/
def slotOf (k : Nat) : RID := ⟨k / h.recordCapacity, k % h.recordCapacity⟩

/-- The first free slot at or after linear number `k`, looking at `fuel` slots. -/
def freeSlotFrom : Nat → Nat → RID
  | 0, k => h.slotOf k
  | fuel + 1, k => if h.slotOf k ∈ h.rids then freeSlotFrom fuel (k + 1) else h.slotOf k

/-- Where `insert_record` puts a new record: among the first `n + 1` slots, `n` records
leave one free. -/
def freeSlot : RID := h.freeSlotFrom h.records.length 0

/-- Scan order on records. -/
def Before (a b : Record) : Prop := a.rid.Le b.rid

instance : DecidableRel Before := fun a b => inferInstanceAs (Decidable (a.rid.Le b.rid))

theorem slotOf_injective : Function.Injective h.slotOf := fun i j hij => by
  simp only [slotOf, RID.mk.injEq] at hij
  rw [← Nat.div_add_mod i h.recordCapacity, ← Nat.div_add_mod j h.recordCapacity, hij.1, hij.2]

/-- A search that ends on a used slot has found every slot it looked at used. -/
theorem slotOf_mem_of_freeSlotFrom_mem : ∀ {fuel k : Nat}, h.freeSlotFrom fuel k ∈ h.rids →
    ∀ j, k ≤ j → j ≤ k + fuel → h.slotOf j ∈ h.rids
  | 0, k, used, j, lo, hi => by rwa [show j = k by omega]
  | fuel + 1, k, used, j, lo, hi => by
    unfold freeSlotFrom at used
    split at used
    · rcases Nat.eq_or_lt_of_le lo with rfl | lt
      · assumption
      · exact slotOf_mem_of_freeSlotFrom_mem used j lt (by omega)
    · contradiction

/-- The first free slot is free: `n` records cannot fill `n + 1` distinct slots. -/
theorem freeSlot_not_mem : h.freeSlot ∉ h.rids := fun used => by
  have all := h.slotOf_mem_of_freeSlotFrom_mem used
  have sub : (List.range (h.records.length + 1)).map h.slotOf ⊆ h.rids := by
    intro r hr
    obtain ⟨j, hj, rfl⟩ := List.mem_map.1 hr
    exact all j (Nat.zero_le _) (by simpa [Nat.lt_succ_iff] using hj)
  have := (List.subperm_of_subset ((List.nodup_range _).map h.slotOf_injective) sub).length_le
  simp only [List.length_map, List.length_range, rids] at this
  omega

/-- `get_record(rid)`. -/
def get (rid : RID) : Option Record := h.records.find? (·.rid == rid)

/-- `insert_record(data)`: the record at the first free slot. -/
def insert (data : Bytes) : RID × RecordFileHandler :=
  (h.freeSlot, { h with
    records := h.records.orderedInsert Before ⟨h.freeSlot, data⟩
    nodup := by
      rw [((List.perm_orderedInsert _ _ _).map _).nodup_iff, List.map_cons, List.nodup_cons]
      exact ⟨h.freeSlot_not_mem, h.nodup⟩ })

/-- `delete_record(rid)`: the slot freed; `none` when it holds no record. -/
def delete (rid : RID) : Option RecordFileHandler :=
  if rid ∈ h.rids then
    some { h with
      records := h.records.filter (·.rid != rid)
      nodup := h.nodup.sublist ((List.filter_sublist _).map _) }
  else none

/-- `update_record(rec)`: the record at `rec.rid` overwritten; `none` when there is none. -/
def update (rec : Record) : Option RecordFileHandler :=
  if rec.rid ∈ h.rids then
    some { h with
      records := h.records.map fun r => if r.rid = rec.rid then rec else r
      nodup := by
        rw [List.map_map]
        convert h.nodup using 2
        funext r
        by_cases hr : r.rid = rec.rid <;> simp [hr] }
  else none

/-! #### What the record manager's calls do -/

theorem filter_orderedInsert_of_neg {α : Type} {r : α → α → Prop} [DecidableRel r] {p : α → Bool}
    {a : α} (ha : p a = false) : ∀ {l : List α}, (l.orderedInsert r a).filter p = l.filter p
  | [] => by simp [ha]
  | b :: l => by
    by_cases hab : r a b
    · simp [hab, ha]
    · simp only [List.orderedInsert, hab, if_false, List.filter_cons, filter_orderedInsert_of_neg ha]

variable {h}

theorem mem_rids {rid : RID} : rid ∈ h.rids ↔ ∃ r ∈ h.records, r.rid = rid := List.mem_map

/-- Addresses being unique, `get_record` finds exactly the record at its address. -/
theorem get_eq_some_iff {rid : RID} {r : Record} :
    h.get rid = some r ↔ r ∈ h.records ∧ r.rid = rid := by
  refine ⟨fun hg => ⟨List.mem_of_find?_eq_some hg, by simpa using List.find?_some hg⟩, ?_⟩
  rintro ⟨mem, rfl⟩
  cases hf : h.get r.rid with
  | none => exact absurd (List.find?_eq_none.1 hf r mem) (by simp)
  | some r' =>
    have found := List.find?_some hf
    simp only [beq_iff_eq] at found
    rw [List.inj_on_of_nodup_map h.nodup (List.mem_of_find?_eq_some hf) mem found]

theorem get_insert_self (data : Bytes) :
    (h.insert data).2.get h.freeSlot = some ⟨h.freeSlot, data⟩ :=
  get_eq_some_iff.2 ⟨(List.mem_orderedInsert _).2 (.inl rfl), rfl⟩

theorem get_insert_of_ne {data : Bytes} {rid : RID} (hne : rid ≠ h.freeSlot) :
    (h.insert data).2.get rid = h.get rid :=
  Option.eq_of_eq_some fun r => by
    rw [get_eq_some_iff, get_eq_some_iff, insert, List.mem_orderedInsert]
    constructor
    · rintro ⟨rfl | mem, rfl⟩
      · exact absurd rfl hne
      · exact ⟨mem, rfl⟩
    · exact fun ⟨mem, he⟩ => ⟨.inr mem, he⟩

/-- Deleting the record just inserted gives the record file back. -/
theorem delete_insert_self (data : Bytes) : (h.insert data).2.delete h.freeSlot = some h := by
  have fresh : ∀ r ∈ h.records, (r.rid != h.freeSlot) = true := fun r hr => by
    simpa using fun he => h.freeSlot_not_mem (mem_rids.2 ⟨r, hr, he⟩)
  have used : h.freeSlot ∈ (h.insert data).2.rids :=
    mem_rids.2 ⟨_, (List.mem_orderedInsert _).2 (.inl rfl), rfl⟩
  rw [delete, if_pos used]
  congr 1
  ext1
  · rfl
  · exact (filter_orderedInsert_of_neg (by simp [insert])).trans (List.filter_eq_self.2 fresh)

theorem mem_insert_records {data : Bytes} {x : Record} (hx : x ∈ (h.insert data).2.records) :
    x ∈ h.records ∨ x = ⟨h.freeSlot, data⟩ :=
  ((List.mem_orderedInsert _).1 hx).symm

theorem records_delete {rid : RID} {h' : RecordFileHandler} (hd : h.delete rid = some h') :
    h'.records = h.records.filter (·.rid != rid) := by
  unfold delete at hd
  split at hd <;> cases hd
  rfl

/-- A record that is there can be deleted. -/
theorem delete_of_get {rid : RID} {r : Record} (hg : h.get rid = some r) :
    ∃ h', h.delete rid = some h' :=
  ⟨_, if_pos (mem_rids.2 ⟨r, (get_eq_some_iff.1 hg).1, (get_eq_some_iff.1 hg).2⟩)⟩

theorem mem_of_delete {rid : RID} {h' : RecordFileHandler} (hd : h.delete rid = some h')
    {x : Record} (hx : x ∈ h'.records) : x ∈ h.records := by
  unfold delete at hd
  split at hd <;> cases hd
  exact (List.mem_filter.1 hx).1

theorem get_delete_of_ne {rid : RID} {h' : RecordFileHandler} (hd : h.delete rid = some h')
    {rid' : RID} (hne : rid' ≠ rid) : h'.get rid' = h.get rid' := by
  unfold delete at hd
  split at hd <;> cases hd
  refine Option.eq_of_eq_some fun r => ?_
  rw [get_eq_some_iff, get_eq_some_iff, List.mem_filter]
  constructor
  · exact fun ⟨⟨mem, _⟩, he⟩ => ⟨mem, he⟩
  · rintro ⟨mem, rfl⟩
    exact ⟨⟨mem, by simpa using hne⟩, rfl⟩

theorem mem_of_update {rec : Record} {h' : RecordFileHandler} (hu : h.update rec = some h')
    {x : Record} (hx : x ∈ h'.records) : x ∈ h.records ∨ x = rec := by
  unfold update at hu
  split at hu <;> cases hu
  obtain ⟨y, hy, rfl⟩ := List.mem_map.1 hx
  by_cases e : y.rid = rec.rid <;> simp [e, hy]

theorem records_update {rec : Record} {h' : RecordFileHandler} (hu : h.update rec = some h') :
    h'.records = h.records.map fun r => if r.rid = rec.rid then rec else r := by
  unfold update at hu
  split at hu <;> cases hu
  rfl

/-- A record that is there can be overwritten. -/
theorem update_of_get {rid : RID} {r : Record} (hg : h.get rid = some r) (data : Bytes) :
    ∃ h', h.update ⟨rid, data⟩ = some h' :=
  ⟨_, if_pos (mem_rids.2 ⟨r, (get_eq_some_iff.1 hg).1, (get_eq_some_iff.1 hg).2⟩)⟩

theorem rids_update {rec : Record} {h' : RecordFileHandler} (hu : h.update rec = some h') :
    h'.rids = h.rids := by
  unfold update at hu
  split at hu <;> cases hu
  simp only [rids, List.map_map]
  exact List.map_congr_left fun r _ => by by_cases hr : r.rid = rec.rid <;> simp [hr]

theorem get_update_self {rec : Record} {h' : RecordFileHandler} (hu : h.update rec = some h') :
    h'.get rec.rid = some rec := by
  unfold update at hu
  split at hu <;> cases hu
  obtain ⟨r, hr, he⟩ := mem_rids.1 ‹_›
  exact get_eq_some_iff.2 ⟨List.mem_map.2 ⟨r, hr, by simp [he]⟩, rfl⟩

theorem get_update_of_ne {rec : Record} {h' : RecordFileHandler} (hu : h.update rec = some h')
    {rid : RID} (hne : rid ≠ rec.rid) : h'.get rid = h.get rid := by
  unfold update at hu
  split at hu <;> cases hu
  refine Option.eq_of_eq_some fun r => ?_
  rw [get_eq_some_iff, get_eq_some_iff, List.mem_map]
  constructor
  · rintro ⟨⟨r0, mem, rfl⟩, he⟩
    by_cases h0 : r0.rid = rec.rid
    · simp only [h0, if_true] at he
      exact absurd he.symm hne
    · simp only [h0, if_false] at he ⊢
      exact ⟨mem, he⟩
  · rintro ⟨mem, rfl⟩
    exact ⟨⟨r, mem, by simp [hne]⟩, rfl⟩

/-- Writing back the record an update replaced undoes the update. -/
theorem update_restore {rec r : Record} {h' : RecordFileHandler} (hu : h.update rec = some h')
    (hg : h.get rec.rid = some r) : h'.update r = some h := by
  obtain ⟨mem, hr⟩ := get_eq_some_iff.1 hg
  have used : r.rid ∈ h'.rids := by rw [rids_update hu, hr]; exact mem_rids.2 ⟨r, mem, hr⟩
  unfold update at hu
  split at hu <;> cases hu
  rw [update, if_pos used]
  congr 1
  ext1
  · rfl
  · simp only [List.map_map]
    refine (List.map_congr_left fun x hx => ?_).trans (List.map_id _)
    by_cases hx' : x.rid = rec.rid
    · simp [hx', hr, List.inj_on_of_nodup_map h.nodup hx mem (hx'.trans hr.symm)]
    · simp [hx', hr]

end RecordFileHandler

/-! ### Indexes -/

/-- `Index`: its meta, the field it reads keys from, and its `(key, rid)` entries. -/
structure Index where
  indexMeta : IndexMeta
  fieldMeta : FieldMeta
  entries : List (Bytes × RID)
  deriving DecidableEq, Repr

/-- Byte-wise lexicographic order on keys, strict. On the little-endian bytes of an `int`
it is not the order of the numbers: `256`, stored `0 1 0 0`, comes before `1`. -/
def keyLt : Bytes → Bytes → Bool
  | [], [] => false
  | [], _ :: _ => true
  | _ :: _, [] => false
  | x :: xs, y :: ys => x < y || (x == y && keyLt xs ys)

/-- The order entries are kept in: by key bytes, then by rid (§4.3's tie-break). -/
def EntryLe (a b : Bytes × RID) : Prop := keyLt a.1 b.1 ∨ (a.1 = b.1 ∧ a.2.Le b.2)

instance : DecidableRel EntryLe := fun a b =>
  inferInstanceAs (Decidable (keyLt a.1 b.1 ∨ (a.1 = b.1 ∧ a.2.Le b.2)))

theorem EntryLe.refl (a : Bytes × RID) : EntryLe a a := .inr ⟨rfl, a.2.le_refl⟩

namespace Index

variable (i : Index)

/-- The key of a record: the `len` bytes of the index's field, read at its offset. -/
def key (data : Bytes) : Bytes := readBytes (data.drop i.fieldMeta.offset) i.fieldMeta.len

/-- `insert_entry(record, rid)`: the entry goes in at its place in `EntryLe`, whose key
order is byte-wise on the key's bytes, not the tree's typed order. -/
def insertEntry (data : Bytes) (rid : RID) : Index :=
  { i with entries := i.entries.orderedInsert EntryLe (i.key data, rid) }

/-- The index without the entry of `(data, rid)`. -/
def eraseEntry (data : Bytes) (rid : RID) : Index :=
  { i with entries := i.entries.erase (i.key data, rid) }

/-- `delete_entry(record, rid)`: `none` when the entry is absent. -/
def deleteEntry (data : Bytes) (rid : RID) : Option Index :=
  if (i.key data, rid) ∈ i.entries then some (i.eraseEntry data rid) else none

variable {i} {data : Bytes} {rid : RID}

@[simp] theorem fieldMeta_insertEntry : (i.insertEntry data rid).fieldMeta = i.fieldMeta := rfl
@[simp] theorem fieldMeta_eraseEntry : (i.eraseEntry data rid).fieldMeta = i.fieldMeta := rfl
@[simp] theorem indexMeta_insertEntry : (i.insertEntry data rid).indexMeta = i.indexMeta := rfl
@[simp] theorem indexMeta_eraseEntry : (i.eraseEntry data rid).indexMeta = i.indexMeta := rfl
@[simp] theorem key_insertEntry : (i.insertEntry data rid).key = i.key := rfl
@[simp] theorem key_eraseEntry : (i.eraseEntry data rid).key = i.key := rfl

theorem deleteEntry_of_mem (h : (i.key data, rid) ∈ i.entries) :
    i.deleteEntry data rid = some (i.eraseEntry data rid) := if_pos h

/-- `List.erase_orderedInsert` for the `BEq` that `erase` finds on entries. -/
theorem erase_orderedInsert_of_refl {α : Type} [BEq α] [LawfulBEq α] {r : α → α → Prop}
    [DecidableRel r] (refl : ∀ a, r a a) (x : α) (xs : List α) :
    (xs.orderedInsert r x).erase x = xs := by
  rw [List.orderedInsert_eq_take_drop, List.erase_append_right, List.erase_cons_head,
    List.takeWhile_append_dropWhile]
  intro mem
  simpa [refl x] using List.mem_takeWhile_imp mem

/-- `List.Perm.erase` for the `BEq` that `erase` finds on entries. -/
theorem perm_erase_of_lawful {α : Type} [inst : BEq α] [LawfulBEq α] [DecidableEq α] (a : α)
    {l₁ l₂ : List α} (p : l₁.Perm l₂) : (l₁.erase a).Perm (l₂.erase a) := by
  rw [lawful_beq_subsingleton inst instBEqOfDecidableEq]
  exact p.erase a

/-- Two buffers that agree byte for byte (reading past the end as zero) have one key. -/
theorem key_congr {d d' : Bytes} (h : ∀ j, d.getD j 0 = d'.getD j 0) : i.key d = i.key d' := by
  simp only [key, readBytes, List.getD_eq_getElem?_getD, List.getElem?_drop] at h ⊢
  exact List.map_congr_left fun t _ => h _

/-- The stored copy of a buffer has the buffer's key. -/
theorem key_readBytes {data : Bytes} {n : Nat} (h : data.length ≤ n) :
    i.key (readBytes data n) = i.key data :=
  key_congr (getD_readBytes_of_length_le h)

/-- The entry just inserted is there for every record with the same key. -/
theorem mem_insertEntry {data' : Bytes} (hkey : i.key data' = i.key data) :
    (i.key data', rid) ∈ (i.insertEntry data rid).entries := by
  rw [hkey]
  exact (List.mem_orderedInsert _).2 (.inl rfl)

/-- Erasing the entry just inserted, by a record with the same key, gives the index back. -/
theorem eraseEntry_insertEntry {data' : Bytes} (hkey : i.key data' = i.key data) :
    (i.insertEntry data rid).eraseEntry data' rid = i := by
  rw [eraseEntry, key_insertEntry, hkey]
  simp only [insertEntry, erase_orderedInsert_of_refl EntryLe.refl]

end Index

/-! ### The transaction log -/

/-- `Trx`: a running transaction, known by its id. -/
structure Trx where
  trxId : Nat
  deriving DecidableEq, Repr

/-- An entry of a transaction's operation log: the kind, the record, and for an update the
new image. -/
inductive Operation where
  | insert (rid : RID)
  | delete (rid : RID)
  | update (rid : RID) (newRecordData : Bytes)
  deriving DecidableEq, Repr

/-! ### The table and its world -/

/-- The state `Table` owns: `table_meta_`, `record_handler_` and `indexes_`. -/
structure Table where
  tableMeta : TableMeta
  recordHandler : RecordFileHandler
  indexes : List Index

/-- A table, the log of the transaction in scope, and the outcomes still to come. -/
structure World where
  table : Table
  log : List Operation
  faults : List RC

/-- Code run against a world. -/
abbrev Exec := StateM World

namespace World

variable (w : World)

/-- The world once the next outcome has been taken. -/
def pop : World := { w with faults := w.faults.tail }

/-- The next outcome. -/
def next : RC := w.faults.headD .success

def setRecordHandler (h : RecordFileHandler) : World :=
  { w with table := { w.table with recordHandler := h } }

def setIndexes (indexes : List Index) : World :=
  { w with table := { w.table with indexes := indexes } }

def setLog (log : List Operation) : World := { w with log := log }

@[simp] theorem pop_table : w.pop.table = w.table := rfl
@[simp] theorem pop_log : w.pop.log = w.log := rfl
@[simp] theorem pop_faults : w.pop.faults = w.faults.tail := rfl

/-- With no outcome left to come, every call succeeds and takes nothing. -/
theorem next_of_faults_nil (h : w.faults = []) : w.next = .success := by simp [next, h]

theorem pop_of_faults_nil (h : w.faults = []) : w.pop = w := by
  cases w; cases h; rfl

@[simp] theorem setIndexes_self : w.setIndexes w.table.indexes = w := rfl
@[simp] theorem setIndexes_setIndexes (indexes indexes' : List Index) :
    (w.setIndexes indexes).setIndexes indexes' = w.setIndexes indexes' := rfl
@[simp] theorem setRecordHandler_self : w.setRecordHandler w.table.recordHandler = w := rfl
@[simp] theorem setRecordHandler_log (h : RecordFileHandler) :
    (w.setRecordHandler h).log = w.log := rfl
@[simp] theorem setRecordHandler_faults (h : RecordFileHandler) :
    (w.setRecordHandler h).faults = w.faults := rfl
@[simp] theorem setRecordHandler_recordHandler (h : RecordFileHandler) :
    (w.setRecordHandler h).table.recordHandler = h := rfl
@[simp] theorem setRecordHandler_indexes (h : RecordFileHandler) :
    (w.setRecordHandler h).table.indexes = w.table.indexes := rfl
@[simp] theorem setRecordHandler_tableMeta (h : RecordFileHandler) :
    (w.setRecordHandler h).table.tableMeta = w.table.tableMeta := rfl
@[simp] theorem setIndexes_log (indexes : List Index) : (w.setIndexes indexes).log = w.log := rfl
@[simp] theorem setIndexes_faults (indexes : List Index) :
    (w.setIndexes indexes).faults = w.faults := rfl
@[simp] theorem setIndexes_recordHandler (indexes : List Index) :
    (w.setIndexes indexes).table.recordHandler = w.table.recordHandler := rfl
@[simp] theorem setIndexes_indexes (indexes : List Index) :
    (w.setIndexes indexes).table.indexes = indexes := rfl
@[simp] theorem setIndexes_tableMeta (indexes : List Index) :
    (w.setIndexes indexes).table.tableMeta = w.table.tableMeta := rfl
@[simp] theorem setLog_table (log : List Operation) : (w.setLog log).table = w.table := rfl
@[simp] theorem setLog_log (log : List Operation) : (w.setLog log).log = log := rfl
@[simp] theorem setLog_faults (log : List Operation) : (w.setLog log).faults = w.faults := rfl

end World

/-! ### Calls to the collaborators -/

/-- One call to a collaborator: with outcome `success` it does its work, with any other
outcome it returns that code and changes nothing. -/
def call {α : Type} (fail : RC → α) (act : Exec α) : Exec α := fun w =>
  if w.next = .success then act w.pop else (fail w.next, w.pop)

/-- `record_handler_->insert_record(data, size, &rid)`: `size` bytes read at `data`. -/
def rhInsertRecord (data : Bytes) (size : Nat) : Exec (RC × RID) :=
  call (fun rc => (rc, ⟨0, 0⟩)) fun w =>
    let (rid, h) := w.table.recordHandler.insert (readBytes data size)
    ((.success, rid), w.setRecordHandler h)

/-- `record_handler_->delete_record(&rid)`. -/
def rhDeleteRecord (rid : RID) : Exec RC :=
  call id fun w =>
    match w.table.recordHandler.delete rid with
    | some h => (.success, w.setRecordHandler h)
    | none => (.genericError, w)

/-- `record_handler_->get_record(&rid, &record)`. -/
def rhGetRecord (rid : RID) : Exec (RC × Record) :=
  call (fun rc => (rc, ⟨rid, []⟩)) fun w =>
    match w.table.recordHandler.get rid with
    | some r => ((.success, r), w)
    | none => ((.genericError, ⟨rid, []⟩), w)

/-- `record_handler_->update_record(&record)`. -/
def rhUpdateRecord (rec : Record) : Exec RC :=
  call id fun w =>
    match w.table.recordHandler.update rec with
    | some h => (.success, w.setRecordHandler h)
    | none => (.genericError, w)

/-- `index->insert_entry(data, &rid)` on the `k`-th index of `indexes_`. -/
def indexInsertEntry (k : Nat) (data : Bytes) (rid : RID) : Exec RC :=
  call id fun w =>
    (.success, w.setIndexes (w.table.indexes.modify (fun i => i.insertEntry data rid) k))

/-- `index->delete_entry(data, &rid)` on the `k`-th index of `indexes_`. -/
def indexDeleteEntry (k : Nat) (data : Bytes) (rid : RID) : Exec RC :=
  call id fun w =>
    match w.table.indexes[k]? >>= fun i => i.deleteEntry data rid with
    | some i => (.success, w.setIndexes (w.table.indexes.set k i))
    | none => (.recordInvalidKey, w)

@[simp] theorem call_run {α : Type} (fail : RC → α) (act : Exec α) (w : World) :
    (call fail act).run w = if w.next = .success then act.run w.pop else (fail w.next, w.pop) :=
  rfl

theorem run_bind_eq {α β : Type} {x : Exec α} {f : α → Exec β} {w w' : World} {a : α}
    (hx : x.run w = (a, w')) : (x >>= f).run w = (f a).run w' := by
  simp only [StateT.run_bind, hx, Id.bind_eq]

theorem rhInsertRecord_run (data : Bytes) (size : Nat) (w : World) :
    (rhInsertRecord data size).run w =
      if w.next = .success then
        ((.success, (w.table.recordHandler.insert (readBytes data size)).1),
          w.pop.setRecordHandler (w.table.recordHandler.insert (readBytes data size)).2)
      else ((w.next, ⟨0, 0⟩), w.pop) := rfl

theorem rhGetRecord_run (rid : RID) (w : World) :
    (rhGetRecord rid).run w =
      if w.next = .success then
        match w.table.recordHandler.get rid with
        | some r => ((.success, r), w.pop)
        | none => ((.genericError, ⟨rid, []⟩), w.pop)
      else ((w.next, ⟨rid, []⟩), w.pop) := by
  simp only [rhGetRecord, call_run]
  split <;> rfl

/-- `get_record` changes nothing but the outcomes still to come. -/
theorem rhGetRecord_world (rid : RID) (w : World) : ((rhGetRecord rid).run w).2 = w.pop := by
  rw [rhGetRecord_run]
  split
  · split <;> rfl
  · rfl

theorem rhGetRecord_success {rid : RID} {r : Record} {w w' : World}
    (h : (rhGetRecord rid).run w = ((.success, r), w')) :
    w' = w.pop ∧ w.table.recordHandler.get rid = some r := by
  refine ⟨by rw [← rhGetRecord_world rid w, h], ?_⟩
  rw [rhGetRecord_run] at h
  split at h
  · split at h
    · cases h; assumption
    · cases h
  · exact absurd (congrArg (·.1.1) h) ‹_›

theorem rhDeleteRecord_run (rid : RID) (w : World) :
    (rhDeleteRecord rid).run w =
      if w.next = .success then
        match w.table.recordHandler.delete rid with
        | some h => (.success, w.pop.setRecordHandler h)
        | none => (.genericError, w.pop)
      else (w.next, w.pop) := by
  simp only [rhDeleteRecord, call_run]
  split <;> rfl

theorem rhUpdateRecord_run (rec : Record) (w : World) :
    (rhUpdateRecord rec).run w =
      if w.next = .success then
        match w.table.recordHandler.update rec with
        | some h => (.success, w.pop.setRecordHandler h)
        | none => (.genericError, w.pop)
      else (w.next, w.pop) := by
  simp only [rhUpdateRecord, call_run]
  split <;> rfl

theorem indexInsertEntry_run (k : Nat) (data : Bytes) (rid : RID) (w : World) :
    (indexInsertEntry k data rid).run w =
      if w.next = .success then
        (.success, w.pop.setIndexes (w.table.indexes.modify (·.insertEntry data rid) k))
      else (w.next, w.pop) := rfl

theorem indexDeleteEntry_run (k : Nat) (data : Bytes) (rid : RID) (w : World) :
    (indexDeleteEntry k data rid).run w =
      if w.next = .success then
        match w.table.indexes[k]? >>= fun i => i.deleteEntry data rid with
        | some i => (.success, w.pop.setIndexes (w.table.indexes.set k i))
        | none => (.recordInvalidKey, w.pop)
      else (w.next, w.pop) := by
  simp only [indexDeleteEntry, call_run]
  split <;> rfl

/-! ### Relations an operation keeps

A `WorldRel` is a reflexive, transitive relation between a world and a later one that
taking an outcome keeps. `Preserves R act`: every run of `act` relates the world before to
the world after. This is closed under the monad's operations, so an operation keeps `R`
as soon as the work of every collaborator call it makes does. -/

/-- A relation between a world and a later one: reflexive, transitive, and kept by taking
an outcome. -/
structure WorldRel where
  rel : World → World → Prop
  refl : ∀ w, rel w w
  trans : ∀ {a b c}, rel a b → rel b c → rel a c
  pop : ∀ w, rel w w.pop

/-- Every run of `act` relates the world before to the world after by `R`. -/
def Preserves (R : WorldRel) {α : Type} (act : Exec α) : Prop :=
  ∀ w, R.rel w (act.run w).2

namespace Preserves

variable {R : WorldRel}

/-- An action that leaves the world as it is keeps every relation. -/
theorem of_unchanged {α : Type} {act : Exec α} (h : ∀ w, (act.run w).2 = w) :
    Preserves R act := fun w => by
  rw [h w]
  exact R.refl w

theorem pure {α : Type} (a : α) : Preserves R (Pure.pure a) := of_unchanged fun _ => rfl

theorem bind {α β : Type} {x : Exec α} {f : α → Exec β} (hx : Preserves R x)
    (hf : ∀ a, Preserves R (f a)) : Preserves R (x >>= f) :=
  fun w => R.trans (hx w) (hf _ _)

/-- A collaborator call keeps `R` when its work does. -/
theorem call {α : Type} {fail : RC → α} {act : Exec α} (h : Preserves R act) :
    Preserves R (Miniob.call fail act) := fun w => by
  simp only [call_run]
  split
  · exact R.trans (R.pop w) (h _)
  · exact R.pop w

end Preserves

/-- Once `P` holds it keeps holding, for a `P` that taking an outcome keeps. -/
def WorldRel.ofInvariant (P : World → Prop) (pop : ∀ w, P w → P w.pop) : WorldRel where
  rel w w' := P w → P w'
  refl _ := id
  trans h₁ h₂ := h₂ ∘ h₁
  pop := pop

/-- `P` holds of every heap record of a table with meta `m`, and stays so: the meta is
kept, and a heap whose records all satisfy `P` becomes one whose records all do. -/
def keepsHeap (m : TableMeta) (P : Bytes → Prop) : WorldRel where
  rel w w' := w.table.tableMeta = m → (∀ r ∈ w.table.recordHandler.records, P r.data) →
    w'.table.tableMeta = m ∧ ∀ r ∈ w'.table.recordHandler.records, P r.data
  refl _ hm all := ⟨hm, all⟩
  trans h₁ h₂ hm all := h₂ (h₁ hm all).1 (h₁ hm all).2
  pop _ hm all := ⟨hm, all⟩

/-- The record at every address but `rid` is left alone. -/
def keepsOthers (rid : RID) : WorldRel where
  rel w w' := ∀ rid', rid' ≠ rid → w'.table.recordHandler.get rid' = w.table.recordHandler.get rid'
  refl _ _ _ := rfl
  trans h₁ h₂ rid' ne := (h₂ rid' ne).trans (h₁ rid' ne)
  pop _ _ _ := rfl

namespace Preserves

variable {m : TableMeta} {P : Bytes → Prop} {α : Type} {act : Exec α}

/-- An action that keeps the meta and whose records after are records before or satisfy
`P` keeps `P` on the heap. -/
theorem keepsHeap_of (h : ∀ w, (act.run w).2.table.tableMeta = w.table.tableMeta ∧
    ∀ r ∈ (act.run w).2.table.recordHandler.records, r ∈ w.table.recordHandler.records ∨ P r.data) :
    Preserves (keepsHeap m P) act :=
  fun w hm all => ⟨(h w).1.trans hm, fun r hr => ((h w).2 r hr).elim (all r) id⟩

/-- An action that leaves the heap and the meta alone. -/
theorem keepsHeap_of_heap (h : ∀ w, (act.run w).2.table.tableMeta = w.table.tableMeta ∧
    (act.run w).2.table.recordHandler = w.table.recordHandler) : Preserves (keepsHeap m P) act :=
  keepsHeap_of fun w => ⟨(h w).1, fun r hr => .inl (by rwa [← (h w).2])⟩

theorem keepsOthers_of_heap {rid : RID}
    (h : ∀ w, (act.run w).2.table.recordHandler = w.table.recordHandler) :
    Preserves (keepsOthers rid) act :=
  fun w _ _ => by rw [h w]

end Preserves

/-! #### What each collaborator call keeps -/

section Calls

variable {m : TableMeta} {P : Bytes → Prop}

theorem rhInsertRecord_keepsHeap {data : Bytes} {size : Nat} (hP : P (readBytes data size)) :
    Preserves (keepsHeap m P) (rhInsertRecord data size) :=
  .call <| .keepsHeap_of fun _ => ⟨rfl, fun _ hr =>
    (RecordFileHandler.mem_insert_records hr).imp id fun e => by rw [e]; exact hP⟩

theorem rhDeleteRecord_keepsHeap (rid : RID) : Preserves (keepsHeap m P) (rhDeleteRecord rid) :=
  .call <| .keepsHeap_of fun w => by
    dsimp only [StateT.run]
    split
    · exact ⟨rfl, fun _ hr => .inl (RecordFileHandler.mem_of_delete ‹_› hr)⟩
    · exact ⟨rfl, fun _ hr => .inl hr⟩

theorem rhUpdateRecord_keepsHeap {rec : Record} (hP : P rec.data) :
    Preserves (keepsHeap m P) (rhUpdateRecord rec) :=
  .call <| .keepsHeap_of fun w => by
    dsimp only [StateT.run]
    split
    · exact ⟨rfl, fun _ hr => (RecordFileHandler.mem_of_update ‹_› hr).imp id fun e => by
        rw [e]; exact hP⟩
    · exact ⟨rfl, fun _ hr => .inl hr⟩

theorem rhDeleteRecord_keepsOthers (rid : RID) : Preserves (keepsOthers rid) (rhDeleteRecord rid) :=
  .call fun w rid' ne => by
    dsimp only [StateT.run]
    split
    · exact RecordFileHandler.get_delete_of_ne ‹_› ne
    · rfl

theorem rhUpdateRecord_keepsOthers {rid : RID} (data : Bytes) :
    Preserves (keepsOthers rid) (rhUpdateRecord ⟨rid, data⟩) :=
  .call fun w rid' ne => by
    dsimp only [StateT.run]
    split
    · exact RecordFileHandler.get_update_of_ne ‹_› ne
    · rfl

theorem indexInsertEntry_heap (k : Nat) (data : Bytes) (rid : RID) (w : World) :
    ((indexInsertEntry k data rid).run w).2.table.tableMeta = w.table.tableMeta ∧
      ((indexInsertEntry k data rid).run w).2.table.recordHandler = w.table.recordHandler := by
  rw [indexInsertEntry_run]
  split <;> exact ⟨rfl, rfl⟩

theorem indexDeleteEntry_heap (k : Nat) (data : Bytes) (rid : RID) (w : World) :
    ((indexDeleteEntry k data rid).run w).2.table.tableMeta = w.table.tableMeta ∧
      ((indexDeleteEntry k data rid).run w).2.table.recordHandler = w.table.recordHandler := by
  rw [indexDeleteEntry_run]
  split
  · split <;> exact ⟨rfl, rfl⟩
  · exact ⟨rfl, rfl⟩

theorem rhGetRecord_heap (rid : RID) (w : World) :
    ((rhGetRecord rid).run w).2.table = w.table := by
  rw [rhGetRecord_world]; rfl

end Calls

/-! ### The indexes as a loop over positions changes them -/

theorem getElem?_foldl_modify {α : Type} (f : α → α) (j : Nat) :
    ∀ {ks : List Nat} (l : List α), ks.Nodup →
      (ks.foldl (fun acc k => acc.modify f k) l)[j]? = if j ∈ ks then l[j]?.map f else l[j]?
  | [], l, _ => by simp
  | k :: ks, l, nd => by
    rw [List.foldl_cons, getElem?_foldl_modify f j _ (List.nodup_cons.1 nd).2, List.getElem?_modify]
    have := (List.nodup_cons.1 nd).1
    by_cases hj : j ∈ ks
    · have : k ≠ j := fun e => by subst e; contradiction
      cases l[j]? <;> simp [hj, this]
    · by_cases hk : k = j
      · cases l[j]? <;> simp [hj, hk]
      · cases l[j]? <;> simp [hj, hk, Ne.symm hk]

theorem modify_set_self {α : Type} (f : α → α) (l : List α) (k : Nat) (a : α) :
    (l.set k a).modify f k = l.set k (f a) := by
  apply List.ext_getElem?
  intro j
  rw [List.getElem?_modify, List.getElem?_set, List.getElem?_set]
  by_cases hj : k = j
  · subst hj
    split <;> simp
  · simp [hj]

/-- Changing every position in turn changes every element. -/
theorem foldl_modify_range {α : Type} (f : α → α) (l : List α) :
    (List.range l.length).foldl (fun acc k => acc.modify f k) l = l.map f := by
  apply List.ext_getElem?
  intro j
  rw [getElem?_foldl_modify f j l (List.nodup_range _), List.getElem?_map]
  by_cases hj : j < l.length
  · simp [hj]
  · simp [hj, List.getElem?_eq_none (Nat.le_of_not_lt hj)]

end Miniob
