import Miniob.Storage.Component

/-!
Transactions: the record header, visibility, and the calls `Table` makes on `Trx`.

Modelled from the spec: `trx.cpp` is not in the sources. §4.6 says the sys fields at the
start of a record encode the owning transaction and a deleted flag, that
`init_trx_info` stamps the owner, `delete_record` sets the flag and writes the record
back in place, `commit_insert` clears the ownership, and that a record is visible to `T`
when it is not deleted and its owner is `0` or `T`. We fix one encoding: the first four
bytes (the first sys field, `TableMeta.has_trx_field`) hold one little-endian word, the
owner in its low 31 bits and the deleted flag in its top bit. Transaction ids are
positive and fit in 31 bits, so `0` means committed.

The header lemmas (`trxWord_setTrxWord`, `setTrxWord_setTrxWord`,
`setTrxWord_trxWord`) are the encoding's lens laws; everything else uses them.
-/

namespace Miniob

/-- The top bit of the transaction word, `2 ^ 31`: `DELETED_FLAG_BIT_MASK`. -/
def deletedFlag : Nat := 2147483648

/-- The word in the first four bytes of a record. -/
def trxWord (data : Bytes) : Nat := leWord data

/-- The record with its first four bytes holding `w`. -/
def setTrxWord (data : Bytes) (w : Nat) : Bytes :=
  memcpy data 0 (intBytes (BitVec.ofNat 32 w)) 4

/-- The owning transaction of a record, `0` once committed. -/
def recordOwner (data : Bytes) : Nat := trxWord data % deletedFlag

/-- Whether a record is marked deleted. -/
def recordDeleted (data : Bytes) : Bool := deletedFlag ≤ trxWord data

/-- A running transaction: a positive id that fits the owner bits. -/
structure Trx.Valid (t : Trx) : Prop where
  pos : 0 < t.trxId
  lt : t.trxId < deletedFlag

/-- `trx->init_trx_info(table, record)`: owned by `t`, not deleted. -/
def initTrxInfo (t : Trx) (data : Bytes) : Bytes := setTrxWord data t.trxId

/-- The record with its deleted flag set. -/
def markDeleted (data : Bytes) : Bytes := setTrxWord data (recordOwner data + deletedFlag)

/-- The record with its deleted flag cleared. -/
def unmarkDeleted (data : Bytes) : Bytes := setTrxWord data (recordOwner data)

/-- The record with its owner cleared, its deleted flag kept. -/
def clearOwner (data : Bytes) : Bytes :=
  setTrxWord data (if recordDeleted data then deletedFlag else 0)

/-- `trx->is_visible(table, &record)`. -/
def isVisible (t : Trx) (data : Bytes) : Bool :=
  !recordDeleted data && (recordOwner data == 0 || recordOwner data == t.trxId)

/-- `trx == nullptr || trx->is_visible(this, &record)`. -/
def visibleTo : Option Trx → Bytes → Bool
  | none, _ => true
  | some t, data => isVisible t data

/-! ### The header's lens laws -/

theorem length_setTrxWord (data : Bytes) (w : Nat) : (setTrxWord data w).length = data.length :=
  length_memcpy _ _ _ _

theorem getD_setTrxWord {data : Bytes} {w i : Nat} (hi : i < 4) (hlen : 4 ≤ data.length) :
    (setTrxWord data w).getD i 0 = ((intBytes (BitVec.ofNat 32 w)).getD i 0) := by
  rw [List.getD_eq_getElem?_getD, setTrxWord, getElem?_memcpy_of_le (Nat.zero_le _) hi
    (by omega)]
  rfl

theorem trxWord_setTrxWord {data : Bytes} (w : Nat) (hlen : 4 ≤ data.length) :
    trxWord (setTrxWord data w) = w % 4294967296 := by
  simp only [trxWord, leWord, getD_setTrxWord (by decide : 0 < 4) hlen, getD_setTrxWord (by decide : 1 < 4) hlen,
    getD_setTrxWord (by decide : 2 < 4) hlen, getD_setTrxWord (by decide : 3 < 4) hlen]
  simp only [intBytes, BitVec.toNat_ofNat, List.getD_cons_zero, List.getD_cons_succ,
    toNat_toUInt8_mod]
  omega

theorem setTrxWord_setTrxWord (data : Bytes) (w w' : Nat) :
    setTrxWord (setTrxWord data w) w' = setTrxWord data w' := by
  apply List.ext_getElem?
  intro i
  by_cases hi : i < 4
  · by_cases hl : i < data.length
    · rw [setTrxWord, getElem?_memcpy_of_le (Nat.zero_le _) hi (by rwa [length_setTrxWord]),
        setTrxWord, getElem?_memcpy_of_le (Nat.zero_le _) hi hl]
    · simp [setTrxWord, List.getElem?_eq_none, Nat.le_of_not_lt hl]
  · simp only [setTrxWord, getElem?_memcpy_of_lt (Or.inr (by omega : 0 + 4 ≤ i))]

theorem setTrxWord_trxWord {data : Bytes} (hlen : 4 ≤ data.length) :
    setTrxWord data (trxWord data) = data := by
  apply List.ext_getElem?
  intro i
  by_cases hi : i < 4
  · rw [setTrxWord, getElem?_memcpy_of_le (Nat.zero_le _) hi (by omega),
      List.getElem?_eq_getElem (by omega)]
    have h0 := (data.getD 0 0).toNat_lt_size
    have h1 := (data.getD 1 0).toNat_lt_size
    have h2 := (data.getD 2 0).toNat_lt_size
    have h3 := (data.getD 3 0).toNat_lt_size
    simp only [UInt8.size] at h0 h1 h2 h3
    have hget : ∀ j (hj : j < data.length), data[j] = data.getD j 0 := fun j hj => by
      simp [List.getD_eq_getElem?_getD, List.getElem?_eq_getElem hj]
    obtain rfl | rfl | rfl | rfl : i = 0 ∨ i = 1 ∨ i = 2 ∨ i = 3 := by omega
    all_goals
      simp only [trxWord, leWord, intBytes, BitVec.toNat_ofNat, List.getD_cons_zero,
        List.getD_cons_succ, Nat.sub_zero, Option.some.injEq]
      rw [hget _ (by omega)]
      apply UInt8.toNat.inj
      rw [toNat_toUInt8_mod]
      omega
  · exact getElem?_memcpy_of_lt (Or.inr (by omega))

/-- The header writes leave every byte past the first four alone. -/
theorem getElem?_setTrxWord_of_le {data : Bytes} {w p : Nat} (h : 4 ≤ p) :
    (setTrxWord data w)[p]? = data[p]? :=
  getElem?_memcpy_of_lt (.inr h)

theorem slice_setTrxWord {data : Bytes} {w off n : Nat} (h : 4 ≤ off) :
    slice (setTrxWord data w) off n = slice data off n :=
  slice_memcpy_of_disjoint (.inr h)

/-- Setting the deleted flag and clearing it again gives back a record that was not
deleted. -/
theorem unmarkDeleted_markDeleted {data : Bytes} (hlen : 4 ≤ data.length)
    (live : recordDeleted data = false) : unmarkDeleted (markDeleted data) = data := by
  have below : trxWord data < deletedFlag := by simpa [recordDeleted] using live
  have hw := trxWord_setTrxWord (recordOwner data + deletedFlag) hlen
  unfold unmarkDeleted markDeleted
  rw [setTrxWord_setTrxWord, recordOwner, hw]
  unfold recordOwner deletedFlag at *
  rw [show (trxWord data % 2147483648 + 2147483648) % 4294967296 % 2147483648 = trxWord data
    by omega]
  exact setTrxWord_trxWord hlen

/-! ### The calls `Table` makes on a transaction -/

/-- `trx->insert_record(table, record)`: an `INSERT` entry in the log. -/
def trxInsertRecord (rid : RID) : Exec RC :=
  call id fun w => (.success, w.setLog (w.log ++ [.insert rid]))

/-- Rewrite the record at `rid` in place with `f` applied to its bytes, as the
transaction's own record-manager call. -/
def trxRewrite (f : Bytes → Bytes) (record : Record) : Exec RC :=
  call id fun w =>
    match w.table.recordHandler.update ⟨record.rid, f record.data⟩ with
    | some h => (.success, w.setRecordHandler h)
    | none => (.genericError, w)

/-- `trx->delete_record(table, record)`: the record marked deleted in place and a
`DELETE` entry in the log. -/
def trxDeleteRecord (record : Record) : Exec RC :=
  call id fun w =>
    match w.table.recordHandler.update ⟨record.rid, markDeleted record.data⟩ with
    | some h => (.success, (w.setRecordHandler h).setLog (w.log ++ [.delete record.rid]))
    | none => (.genericError, w)

/-- `trx->rollback_delete(table, record)`: the deleted flag cleared in place. -/
def trxRollbackDelete (record : Record) : Exec RC := trxRewrite unmarkDeleted record

/-- `trx->commit_insert(table, record)`: the ownership cleared in place. -/
def trxCommitInsert (record : Record) : Exec RC := trxRewrite clearOwner record

theorem trxInsertRecord_run (rid : RID) (w : World) :
    (trxInsertRecord rid).run w =
      if w.next = .success then (.success, w.pop.setLog (w.log ++ [.insert rid]))
      else (w.next, w.pop) := rfl

theorem trxRewrite_run (f : Bytes → Bytes) (record : Record) (w : World) :
    (trxRewrite f record).run w =
      if w.next = .success then
        match w.table.recordHandler.update ⟨record.rid, f record.data⟩ with
        | some h => (.success, w.pop.setRecordHandler h)
        | none => (.genericError, w.pop)
      else (w.next, w.pop) := by
  simp only [trxRewrite, call_run]
  split <;> rfl

theorem trxDeleteRecord_run (record : Record) (w : World) :
    (trxDeleteRecord record).run w =
      if w.next = .success then
        match w.table.recordHandler.update ⟨record.rid, markDeleted record.data⟩ with
        | some h => (.success, (w.pop.setRecordHandler h).setLog (w.log ++ [.delete record.rid]))
        | none => (.genericError, w.pop)
      else (w.next, w.pop) := by
  simp only [trxDeleteRecord, call_run]
  split <;> rfl

/-- A transaction's delete writes no index, whatever its call returns. -/
theorem trxDeleteRecord_indexes (record : Record) (w : World) :
    ((trxDeleteRecord record).run w).2.table.indexes = w.table.indexes := by
  rw [trxDeleteRecord_run]
  split
  · split <;> rfl
  · rfl

theorem length_markDeleted (data : Bytes) : (markDeleted data).length = data.length :=
  length_setTrxWord _ _

/-- A record a transaction can see is not marked deleted. -/
theorem recordDeleted_of_isVisible {t : Trx} {data : Bytes} (h : isVisible t data = true) :
    recordDeleted data = false := by
  simp only [isVisible, Bool.and_eq_true, Bool.not_eq_true'] at h
  exact h.1

/-! ### The owner and the flag after each header write -/

/-- The stored copy of a buffer no longer than the record has the buffer's header. -/
theorem trxWord_readBytes {data : Bytes} {n : Nat} (h : data.length ≤ n) :
    trxWord (readBytes data n) = trxWord data := by
  simp only [trxWord, leWord, getD_readBytes_of_length_le h]

section Header

variable {data : Bytes} (hlen : 4 ≤ data.length)
include hlen

theorem recordOwner_markDeleted : recordOwner (markDeleted data) = recordOwner data := by
  simp only [markDeleted, recordOwner, trxWord_setTrxWord _ hlen]
  unfold deletedFlag
  omega

theorem recordDeleted_markDeleted : recordDeleted (markDeleted data) = true := by
  simp only [markDeleted, recordDeleted, recordOwner, trxWord_setTrxWord _ hlen, decide_eq_true_eq]
  unfold deletedFlag
  omega

theorem recordOwner_clearOwner : recordOwner (clearOwner data) = 0 := by
  unfold clearOwner
  split <;> simp only [recordOwner, trxWord_setTrxWord _ hlen] <;> rfl

theorem recordDeleted_clearOwner : recordDeleted (clearOwner data) = recordDeleted data := by
  by_cases h : recordDeleted data
  · rw [clearOwner, if_pos h, h]
    simp [recordDeleted, trxWord_setTrxWord _ hlen, deletedFlag]
  · rw [clearOwner, if_neg h, Bool.eq_false_iff.2 h]
    simp [recordDeleted, trxWord_setTrxWord _ hlen, deletedFlag]

theorem recordOwner_initTrxInfo {t : Trx} (valid : t.Valid) :
    recordOwner (initTrxInfo t data) = t.trxId := by
  have := valid.lt
  simp only [initTrxInfo, recordOwner, trxWord_setTrxWord _ hlen]
  unfold deletedFlag at *
  omega

theorem recordDeleted_initTrxInfo {t : Trx} (valid : t.Valid) :
    recordDeleted (initTrxInfo t data) = false := by
  have := valid.lt
  simp only [initTrxInfo, recordDeleted, trxWord_setTrxWord _ hlen, decide_eq_false_iff_not]
  unfold deletedFlag at *
  omega

end Header

/-- A record owned by nobody else is visible to `t` exactly when it is not marked deleted. -/
theorem isVisible_of_owner {t : Trx} {data : Bytes}
    (h : recordOwner data = 0 ∨ recordOwner data = t.trxId) :
    isVisible t data = !recordDeleted data := by
  rcases h with h | h <;> simp [isVisible, h]

end Miniob
