/-
Serial orders of transactions.

A transaction reads versions of items and writes new ones; a version is named by the
transaction that wrote it, and `none` is the version an item has at the beginning.  An
order of transactions is a list with the *last* transaction first.

* `IsSerial` — every read of every transaction returned the version of the last writer
  before it;
* `Serializable` — some order of the transactions is serial;
* `IsSerial.insert` — a transaction that writes nothing may be put anywhere into a serial
  order where its own reads are right.
-/
import Mathlib.Data.List.Permutation

namespace Serial

variable {ι κ : Type*}

/-- A transaction: its name, the items it read with the versions it got, and the items it
wrote. -/
structure Txn (ι κ : Type*) where
  id : ι
  reads : List (κ × Option ι)
  writes : List κ
  deriving DecidableEq

variable [DecidableEq κ]

/-- The version of `x` after the transactions of an order. -/
def lastWriter (x : κ) : List (Txn ι κ) → Option ι
  | [] => none
  | t :: l => if x ∈ t.writes then some t.id else lastWriter x l

/-- Every read of `t` returns the version that its item has after `l`. -/
def ReadsFrom (t : Txn ι κ) (l : List (Txn ι κ)) : Prop :=
  ∀ r ∈ t.reads, r.2 = lastWriter r.1 l

/-- Every transaction of the order reads what the ones before it wrote last. -/
def IsSerial : List (Txn ι κ) → Prop
  | [] => True
  | t :: l => ReadsFrom t l ∧ IsSerial l

/-- The transactions have a serial order. -/
def Serializable (l : List (Txn ι κ)) : Prop := ∃ ord, ord.Perm l ∧ IsSerial ord

instance [DecidableEq ι] (t : Txn ι κ) (l : List (Txn ι κ)) : Decidable (ReadsFrom t l) :=
  inferInstanceAs (Decidable (∀ r ∈ t.reads, _))

instance decidableIsSerial [DecidableEq ι] : ∀ l : List (Txn ι κ), Decidable (IsSerial l)
  | [] => .isTrue trivial
  | _ :: l => @instDecidableAnd _ _ inferInstance (decidableIsSerial l)

instance [DecidableEq ι] (l : List (Txn ι κ)) : Decidable (Serializable l) :=
  decidable_of_iff (∃ ord ∈ l.permutations', IsSerial ord) (by simp [Serializable])

variable {t : Txn ι κ} {a b : List (Txn ι κ)}

theorem lastWriter_append (x : κ) :
    lastWriter x (a ++ b) = (lastWriter x a).or (lastWriter x b) := by
  induction a with
  | nil => rfl
  | cons t a ih =>
    rw [List.cons_append, lastWriter, lastWriter, ih]
    split
    · rfl
    · rfl

/-- A transaction without writes changes no version. -/
theorem lastWriter_insert (ht : t.writes = []) (x : κ) :
    lastWriter x (a ++ t :: b) = lastWriter x (a ++ b) := by
  simp only [lastWriter_append, lastWriter, ht, List.not_mem_nil, if_false]

/-- A transaction without writes fits wherever its reads are right. -/
theorem IsSerial.insert (h : IsSerial (a ++ b)) (ht : t.writes = []) (hr : ReadsFrom t b) :
    IsSerial (a ++ t :: b) := by
  induction a with
  | nil => exact ⟨hr, h⟩
  | cons u a ih =>
    refine ⟨fun r hm => ?_, ih h.2⟩
    rw [List.append_eq, lastWriter_insert ht]
    exact h.1 r hm

end Serial
