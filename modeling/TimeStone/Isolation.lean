/-
Read sets and their validation (`isolation.h`), built with
`TS_ENABLE_SERIALIZABILITY_LINEARIZABILITY`.

Every `ts_deref` adds three pointers to the read set of its transaction: the volatile
header of the object, the newest copy of the object at that moment and what `ts_deref`
returned.  `ts_end` compares the second one with the newest copy of the object at the end
of the transaction.  What is compared is a pointer, and the version that was read need not
be the newest one: only the level `TS_LINEARIZABILITY` looks at that, with a flag.

The functions here are generic in the type `ν` of volatile headers and the type `π` of
pointers to objects; the machines that use them say which headers and copies there are.

* `validateReadSet_entry`, `validateReadSet_stale` — what `ts_end` has checked when it goes
  on to commit.
-/
import Mathlib.Data.List.Basic
import Mathlib.Tactic.Common

namespace TimeStone

/-- The isolation levels of `ts_begin`. -/
inductive Level
  | snapshot
  | serializability
  | linearizability
  deriving DecidableEq

/-- The pointers that `read_set_add` pushes: `p_act_vhdr`, `p_latest` and `p_copy`. -/
structure ReadEntry (ν π : Type*) where
  actVhdr : Option ν
  latest : Option π
  copy : π
  deriving DecidableEq

/-- `ts_isolation_info_t`. -/
structure IsolationInfo (ν π : Type*) where
  level : Level
  readSet : List (ReadEntry ν π)
  staleReadOccured : Bool
  deriving DecidableEq

variable {ν π : Type*}

/-- The version that was read was not the newest one. -/
def ReadEntry.Stale (e : ReadEntry ν π) : Prop := e.latest ≠ none ∧ e.latest ≠ some e.copy

namespace IsolationInfo

/-- `isolation_reset`. -/
def reset (level : Level) : IsolationInfo ν π := ⟨level, [], false⟩

variable (i : IsolationInfo ν π)

/-- `stale_read_occurred`. -/
def staleReadOccurred : Bool := i.staleReadOccured && i.level = .linearizability

/-- `ptrset_push`, three times. -/
def push (e : ReadEntry ν π) : IsolationInfo ν π := { i with readSet := i.readSet ++ [e] }

variable [DecidableEq π]

instance (e : ReadEntry ν π) : Decidable e.Stale := inferInstanceAs (Decidable (_ ∧ _))

/-- `read_set_add`. -/
def readSetAdd (e : ReadEntry ν π) : IsolationInfo ν π :=
  match i.level with
  | .linearizability =>
    -- the abort of a stale read is deferred to the next lock or to the end
    if i.staleReadOccurred = false ∧ e.Stale then { i with staleReadOccured := true }
    else i.push e
  | .serializability => i.push e
  | .snapshot => i

/-- The loop body of `validate_read_set`, with `p_copy` of a volatile header and the
volatile header of an object. -/
def validateEntry (pCopy : ν → Option π) (getActVhdr : π → Option ν) (e : ReadEntry ν π) :
    Bool :=
  match e.actVhdr with
  | some h => pCopy h = e.latest
  | none =>
    -- the object may have got a volatile header since
    match getActVhdr e.copy with
    | some h => pCopy h = none
    | none => true

/-- `validate_read_set`. -/
def validateReadSet (pCopy : ν → Option π) (getActVhdr : π → Option ν) : Bool :=
  match i.level with
  | .linearizability =>
    if i.staleReadOccurred then false else i.readSet.all (validateEntry pCopy getActVhdr)
  | .serializability => i.readSet.all (validateEntry pCopy getActVhdr)
  | .snapshot => true

variable {i} {pCopy : ν → Option π} {getActVhdr : π → Option ν} {e : ReadEntry ν π}

theorem validateReadSet_entry (h : i.validateReadSet pCopy getActVhdr = true)
    (hl : i.level ≠ .snapshot) (he : e ∈ i.readSet) :
    validateEntry pCopy getActVhdr e = true := by
  rw [validateReadSet] at h
  split at h
  · split at h
    · cases h
    · exact List.all_eq_true.mp h e he
  · exact List.all_eq_true.mp h e he
  · exact absurd ‹_› hl

/-- At the level `TS_LINEARIZABILITY` no stale read survives. -/
theorem validateReadSet_stale (h : i.validateReadSet pCopy getActVhdr = true)
    (hl : i.level = .linearizability) : i.staleReadOccured = false := by
  rw [validateReadSet, hl] at h
  cases hs : i.staleReadOccured with
  | false => rfl
  | true =>
    rw [staleReadOccurred, hl, hs] at h
    cases h

/-- As long as there is no stale read, every dereference is in the read set. -/
theorem readSetAdd_linear (hl : i.level = .linearizability)
    (hs : (i.readSetAdd e).staleReadOccured = false) :
    i.staleReadOccured = false ∧ ¬ e.Stale ∧ (i.readSetAdd e).readSet = i.readSet ++ [e] := by
  rw [readSetAdd, hl] at hs ⊢
  dsimp only at hs ⊢
  split at hs
  · cases hs
  · rename_i hno
    have hs : i.staleReadOccured = false := hs
    refine ⟨hs, fun he => hno ⟨?_, he⟩, ?_⟩
    · rw [staleReadOccurred, hs, Bool.false_and]
    · rw [if_neg hno]
      rfl

@[simp]
theorem readSetAdd_level (e : ReadEntry ν π) : (i.readSetAdd e).level = i.level := by
  rw [readSetAdd]
  split
  · split <;> rfl
  · rfl
  · rfl

end IsolationInfo

end TimeStone
