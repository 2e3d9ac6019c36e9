/-
Pointer sets (`util.h`).

`ptrset_push` stores at `ptrs[num_ptrs]` and then counts up, while `ptrset_pop` reads
`ptrs[num_ptrs]` before it counts down, so what it returns is not the pointer pushed last.
Only an empty set is treated the same way by both.
-/
import Mathlib.Data.Nat.Notation
import Mathlib.Tactic.Common

namespace TimeStone

/-- `ts_ptr_set_t`.  Pointers are numbers, `0` is `NULL`; `ptrs` is the memory from the start
of the array on. -/
structure PtrSet where
  numPtrs : ℕ
  ptrs : ℕ → ℕ

/-- `ptrset_push`. -/
def ptrsetPush (p : PtrSet) (x : ℕ) : PtrSet where
  numPtrs := p.numPtrs + 1
  ptrs := fun i => if i = p.numPtrs then x else p.ptrs i

/-- `ptrset_pop`. -/
def ptrsetPop (p : PtrSet) : ℕ × PtrSet :=
  if 0 < p.numPtrs then (p.ptrs p.numPtrs, { p with numPtrs := p.numPtrs - 1 }) else (0, p)

/-- `ptrset_reset`. -/
def ptrsetReset (p : PtrSet) : PtrSet := { p with numPtrs := 0 }

@[simp]
theorem numPtrs_ptrsetPush (p : PtrSet) (x : ℕ) : (ptrsetPush p x).numPtrs = p.numPtrs + 1 := rfl

@[simp]
theorem numPtrs_ptrsetReset (p : PtrSet) : (ptrsetReset p).numPtrs = 0 := rfl

/-- Popping from an empty set returns `NULL`. -/
theorem ptrsetPop_of_empty {p : PtrSet} (h : p.numPtrs = 0) : ptrsetPop p = (0, p) := by
  rw [ptrsetPop, if_neg (by omega)]

end TimeStone
