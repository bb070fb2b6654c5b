import Mathlib.Algebra.Group.Int
import Mathlib.Data.List.Basic

/-!
Byte buffers as the storage engine handles them: a record is a flat `char` array,
values arrive as `malloc`/`strdup` buffers, and every write is a `memcpy` at an offset.

`memcpy dst off src n` is `memcpy(dst + off, src, n)`. The C call reads `n` bytes at
`src` whatever the size of the buffer there; `readBytes` models the bytes past the end of
`src` as zero, and no result below depends on them: the theorems about contents only look
at the part of a copy that lies inside its source. Writes never grow the destination.

The frame lemmas (`slice_memcpy_self`, `slice_memcpy_of_disjoint`,
`getElem?_memcpy_of_lt`, `getElem?_memcpy_of_le`) are what every record-level proof uses
instead of unfolding `memcpy`.
-/

namespace Miniob

/-- A byte buffer: a record image, a value's data, a C string with its terminator. -/
abbrev Bytes := List UInt8

/-- The `n` bytes at `src`, as `memcpy` reads them. Past the end of `src` the C call reads
whatever memory follows; those bytes are zeros here. -/
def readBytes (src : Bytes) (n : Nat) : Bytes :=
  (List.range n).map fun i => src.getD i 0

/-- `memcpy(dst + off, src, n)`. -/
def memcpy (dst : Bytes) (off : Nat) (src : Bytes) (n : Nat) : Bytes :=
  dst.mapIdx fun i b => if off ≤ i ∧ i < off + n then src.getD (i - off) 0 else b

/-- The `n` bytes of `b` starting at `off`. -/
def slice (b : Bytes) (off n : Nat) : Bytes :=
  (b.drop off).take n

/-- `strlen`: the bytes before the first zero. -/
def strlen (b : Bytes) : Nat :=
  (b.takeWhile (· != 0)).length

/-- A C string: its bytes before the terminator, none of them zero. -/
structure CString where
  bytes : Bytes
  no_nul : 0 ∉ bytes

/-- `strdup(s)`: the string's bytes and its terminator. -/
def strdup (s : CString) : Bytes :=
  s.bytes ++ [0]

/-- The four bytes of a C `int` in memory (little endian). -/
def intBytes (v : BitVec 32) : Bytes :=
  [(v.toNat % 256).toUInt8, (v.toNat / 256 % 256).toUInt8,
    (v.toNat / 65536 % 256).toUInt8, (v.toNat / 16777216 % 256).toUInt8]

/-- The first four bytes of a buffer as a little-endian word, as `*(int *)` reads them
before the sign. -/
def leWord (b : Bytes) : Nat :=
  (b.getD 0 0).toNat + 256 * (b.getD 1 0).toNat + 65536 * (b.getD 2 0).toNat +
    16777216 * (b.getD 3 0).toNat

/-- `*(int *)b`: the first four bytes as a C `int`. -/
def intOfBytes (b : Bytes) : Int := (BitVec.ofNat 32 (leWord b)).toInt

theorem toNat_toUInt8_mod (n : Nat) : (n % 256).toUInt8.toNat = n % 256 :=
  UInt8.toNat_ofNat_of_lt (Nat.mod_lt _ (by decide))

theorem leWord_intBytes (v : BitVec 32) : leWord (intBytes v) = v.toNat := by
  have := v.isLt
  simp only [leWord, intBytes, List.getD_cons_zero, List.getD_cons_succ, toNat_toUInt8_mod]
  omega

/-- An `int` stored with `memcpy` reads back as itself. -/
theorem intOfBytes_intBytes (v : BitVec 32) : intOfBytes (intBytes v) = v.toInt := by
  simp [intOfBytes, leWord_intBytes]

@[simp] theorem length_readBytes (src : Bytes) (n : Nat) : (readBytes src n).length = n := by
  simp [readBytes]

@[simp] theorem length_memcpy (dst : Bytes) (off : Nat) (src : Bytes) (n : Nat) :
    (memcpy dst off src n).length = dst.length := by
  simp [memcpy]

@[simp] theorem length_intBytes (v : BitVec 32) : (intBytes v).length = 4 := rfl

/-- Every 32-bit word read as signed lies in `[-2^31, 2^31)`. -/
theorem toInt_mem_range (x : BitVec 32) : -2 ^ 31 ≤ x.toInt ∧ x.toInt < 2 ^ 31 := by
  have := x.isLt
  rw [BitVec.toInt_eq_toNat_cond]
  split <;> omega

theorem length_slice (b : Bytes) (off n : Nat) : (slice b off n).length = min n (b.length - off) := by
  simp [slice]

theorem readBytes_of_le {src : Bytes} {n : Nat} (h : n ≤ src.length) :
    readBytes src n = src.take n := by
  apply List.ext_getElem (by simp [h])
  intro i h₁ _
  rw [length_readBytes] at h₁
  simp [readBytes, List.getD_eq_getElem?_getD, List.getElem?_eq_getElem (by omega : i < src.length)]

theorem getElem?_readBytes (src : Bytes) (n p : Nat) :
    (readBytes src n)[p]? = if p < n then some (src.getD p 0) else none := by
  split
  · simp [readBytes, List.getElem?_range, *]
  · simp [readBytes, List.getElem?_eq_none, Nat.le_of_not_lt ‹_›]

/-- Reading at least as many bytes as a buffer holds changes none of its bytes. -/
theorem getD_readBytes_of_length_le {src : Bytes} {n : Nat} (h : src.length ≤ n) (j : Nat) :
    (readBytes src n).getD j 0 = src.getD j 0 := by
  simp only [readBytes, List.getD_eq_getElem?_getD, List.getElem?_map, List.getElem?_range']
  by_cases hj : j < n
  · simp [List.getElem?_range hj]
  · rw [List.getElem?_eq_none (by simpa using Nat.le_of_not_lt hj),
      List.getElem?_eq_none (by omega : src.length ≤ j)]
    rfl

theorem getElem?_memcpy_of_lt {dst src : Bytes} {off n i : Nat} (h : i < off ∨ off + n ≤ i) :
    (memcpy dst off src n)[i]? = dst[i]? := by
  simp only [memcpy, List.getElem?_mapIdx]
  cases dst[i]? <;> simp; omega

theorem getElem?_memcpy_of_le {dst src : Bytes} {off n i : Nat} (h₁ : off ≤ i) (h₂ : i < off + n)
    (h₃ : i < dst.length) : (memcpy dst off src n)[i]? = some (src.getD (i - off) 0) := by
  simp [memcpy, List.getElem?_mapIdx, List.getElem?_eq_getElem h₃, h₁, h₂]

theorem getElem?_slice (b : Bytes) (off n i : Nat) :
    (slice b off n)[i]? = if i < n then b[off + i]? else none := by
  simp [slice, List.getElem?_take, List.getElem?_drop]

/-- The bytes a copy writes read back as the bytes it read. -/
theorem slice_memcpy_self {dst src : Bytes} {off n : Nat} (h : off + n ≤ dst.length) :
    slice (memcpy dst off src n) off n = readBytes src n := by
  apply List.ext_getElem?
  intro i
  rw [getElem?_slice]
  split
  · rw [getElem?_memcpy_of_le (by omega) (by omega) (by omega)]
    simp [readBytes, List.getElem?_range (by omega : i < n)]
  · exact (List.getElem?_eq_none (by simp; omega)).symm

/-- The part of a copy that lies inside its source is the source's prefix. -/
theorem take_readBytes (src : Bytes) (n : Nat) : (readBytes src n).take src.length = src.take n := by
  apply List.ext_getElem?
  intro i
  simp only [List.getElem?_take, readBytes, List.getElem?_map]
  by_cases hs : i < src.length <;> by_cases hn : i < n <;>
    simp [hs, hn, List.getElem?_range, List.getD_eq_getElem?_getD, List.getElem?_eq_getElem,
      List.getElem?_eq_none] <;> omega

theorem getElem?_readBytes_of_lt {src : Bytes} {n p : Nat} (hp : p < src.length)
    (hn : src.length ≤ n) : (readBytes src n)[p]? = src[p]? := by
  rw [getElem?_readBytes, if_pos (by omega), List.getD_eq_getElem?_getD,
    List.getElem?_eq_getElem hp]
  rfl

/-- Reading past the end of a buffer leaves every range inside it as it was. -/
theorem slice_readBytes_of_le {src : Bytes} {n off len : Nat} (h : off + len ≤ src.length)
    (hn : src.length ≤ n) : slice (readBytes src n) off len = slice src off len :=
  List.ext_getElem? fun i => by
    rw [getElem?_slice, getElem?_slice]
    split
    · exact getElem?_readBytes_of_lt (by omega) hn
    · rfl

/-- A copy leaves every byte range it does not overlap unchanged. -/
theorem slice_memcpy_of_disjoint {dst src : Bytes} {off n off' n' : Nat}
    (h : off' + n' ≤ off ∨ off + n ≤ off') :
    slice (memcpy dst off src n) off' n' = slice dst off' n' := by
  apply List.ext_getElem?
  intro i
  rw [getElem?_slice, getElem?_slice]
  split
  · exact getElem?_memcpy_of_lt (by omega)
  · rfl

end Miniob
