/-
Configuration constants and structure sizes.

The constants are those of `config.h` and `timestone_i.h`; the sizes are the
`sizeof` of the packed header structures on a 64-bit machine, in bytes.
`alignUintToCacheline` is the 32-bit rounding of `util.h`.
-/
import Mathlib.Algebra.Group.Nat.Defs
import Mathlib.Algebra.Group.Int.Defs
import Mathlib.Tactic.Common
import Mathlib.Data.Nat.Notation

namespace TimeStone

/-- `MAX_VERSION`, the write clock of a version that is not committed. -/
def maxVersion : ℕ := 2 ^ 64 - 2

/-- `MIN_VERSION`. -/
def minVersion : ℕ := 0

/-- `TS_TVLOG_SIZE`: 1 MB. -/
def tvlogSize : ℕ := 2 ^ 20

/-- `TS_TVLOG_HIGH_MARK`: 75% of the transient version log. -/
def tvlogHighMark : ℕ := tvlogSize - tvlogSize / 4

/-- `TS_TVLOG_LOW_MARK`: 50% of the transient version log. -/
def tvlogLowMark : ℕ := tvlogSize / 2

/-- `TS_OPLOG_SIZE`: 1 MB. -/
def oplogSize : ℕ := 2 ^ 20

/-- `TS_OPLOG_HIGH_MARK`: 75% of the operational log. -/
def oplogHighMark : ℕ := oplogSize - oplogSize / 4

/-- `TS_CKPTLOG_SIZE`: 4 MB. -/
def ckptlogSize : ℕ := 2 ^ 22

/-- `TS_CKPTLOG_HIGH_MARK`: 75% of the checkpoint log. -/
def ckptlogHighMark : ℕ := ckptlogSize - ckptlogSize / 4

/-- `TS_CKPTLOG_LOW_MARK`: 62.5% of the checkpoint log. -/
def ckptlogLowMark : ℕ := ckptlogHighMark - ckptlogSize / 8

/-- `TS_CACHE_LINE_SIZE`. -/
def cacheLineSize : ℕ := 64

/-- `sizeof(ts_obj_hdr_t)`. -/
def sizeofObjHdr : ℕ := 8

/-- `sizeof(ts_cpy_hdr_struct_t)`: six words of `ts_cpy_hdr_t` and the object
header. -/
def sizeofCpyHdrStruct : ℕ := 56

/-- `sizeof(ts_wrt_set_t)`. -/
def sizeofWrtSet : ℕ := 40

/-- `sizeof(ts_wrt_set_struct_t)`. -/
def sizeofWrtSetStruct : ℕ := sizeofCpyHdrStruct + sizeofWrtSet

/-- `sizeof(ts_nvlog_entry_hdr_t)`. -/
def sizeofNvlogEntryHdr : ℕ := 16

/-- `sizeof(ts_op_entry_hdr_t)`. -/
def sizeofOpEntryHdr : ℕ := 16

/-- `sizeof(ts_ckpt_entry_hdr_t)`. -/
def sizeofCkptEntryHdr : ℕ := 24

/-- `TS_MAX_OPERAND_SIZE`. -/
def maxOperandSize : ℕ := 256 - sizeofOpEntryHdr

/-- Conversion to a 32-bit `unsigned int`. -/
def uint (n : ℕ) : ℕ := n % 2 ^ 32

/-- Conversion to a 16-bit `unsigned short`. -/
def ushort (n : ℕ) : ℕ := n % 2 ^ 16

/-- Conversion to a 64-bit `unsigned long`. -/
def ulong (n : ℕ) : ℕ := n % 2 ^ 64

/-- The difference of two counters, in the arithmetic of `unsigned long`. -/
def ulongSub (a b : ℕ) : ℕ := ulong (a + (2 ^ 64 - ulong b))

/-- `align_uint_to_cacheline`: round up to a multiple of the cache-line size,
in 32-bit arithmetic. -/
def alignUintToCacheline (unum : ℕ) : ℕ :=
  uint (unum + (cacheLineSize - 1)) / cacheLineSize * cacheLineSize

/-- The aligned entry size that `tvlog_alloc` computes for an object. -/
def tvlogEntrySize (objSize : ℕ) : ℕ :=
  alignUintToCacheline (uint (objSize + sizeofCpyHdrStruct))

/-- The object sizes that `tvlog_alloc` accepts: its assertion
`entry_size < TS_TVLOG_SIZE`, for an object that fits the log at all. -/
def tvlogAccepts (objSize : ℕ) : Prop :=
  objSize < tvlogSize ∧ tvlogEntrySize objSize < tvlogSize

instance (n : ℕ) : Decidable (tvlogAccepts n) := inferInstanceAs (Decidable (_ ∧ _))

theorem alignUintToCacheline_eq {n : ℕ} (h : n + 63 < 2 ^ 32) :
    alignUintToCacheline n = (n + 63) / 64 * 64 := by
  rw [alignUintToCacheline, uint, cacheLineSize, Nat.mod_eq_of_lt (by omega)]

/-- A difference that is no more than the numbers of 64 bits is the difference. -/
theorem ulongSub_eq {a b : ℕ} (h : b ≤ a) (hlt : a - b < 2 ^ 64) : ulongSub a b = a - b := by
  rw [ulongSub, ulong, ulong]
  omega

theorem dvd_alignUintToCacheline (n : ℕ) : 64 ∣ alignUintToCacheline n :=
  ⟨_, Nat.mul_comm _ _⟩

end TimeStone
