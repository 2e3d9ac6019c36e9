/-
Persistent memory behind a write-back cache.

A `Cell` is a unit that reaches the memory as a whole, a cache line or a word on a line of
its own.  The cache holds its current contents; what the memory holds is any contents the
cell has had since the last write-back that a fence completed.  `store`, `clwb` and `fence`
are the instructions.  A fence completes the write-backs before it: what remains possible
then are the contents at the last `clwb` and the later ones.  The cache may also write a cell
back by itself (`evict`).

`Within` compares a cell that only the cache writes back with one for which `clwb` and `fence`
are performed: as long as the cache is done with the cell when the fence comes, the memory
holds nothing that it may not hold there.

* `Cell.durable_of_stable` — a cell that was written back and not stored to since has one
  possible contents;
* `Cell.stable_fence` — a cell that was written back is stable behind the fence;
* `Cell.Within.fence` — a fence that finds the cell in memory keeps the comparison.
-/
import Mathlib.Tactic.Common

namespace Pmem

/-- A unit of persistent memory. -/
structure Cell (α : Type*) where
  /-- The contents in the cache. -/
  cur : α
  /-- Earlier contents that the memory may still hold. -/
  old : List α
  /-- Those of them that were stored since the last `clwb`. -/
  late : List α

namespace Cell

variable {α : Type*} {a b : α} {c : Cell α}

/-- Store new contents. -/
def store (c : Cell α) (a : α) : Cell α := ⟨a, c.old ++ [c.cur], c.late ++ [c.cur]⟩

/-- Start writing the current contents back. -/
def clwb (c : Cell α) : Cell α := { c with late := [] }

/-- Wait for the write-backs. -/
def fence (c : Cell α) : Cell α := { c with old := c.late }

/-- The cache writes the cell back by itself. -/
def evict (c : Cell α) : Cell α := ⟨c.cur, [], []⟩

/-- The contents the memory may hold. -/
def Durable (c : Cell α) (a : α) : Prop := a = c.cur ∨ a ∈ c.old

/-- The memory holds the current contents. -/
def Stable (c : Cell α) : Prop := c.old = [] ∧ c.late = []

/-- A cell that has never been stored to since it reached the memory. -/
def mk' (a : α) : Cell α := ⟨a, [], []⟩

theorem durable_of_stable (h : c.Stable) (hd : c.Durable a) : a = c.cur := by
  rcases hd with hd | hd
  · exact hd
  · rw [h.1] at hd
    cases hd

theorem Stable.clwb (h : c.Stable) : c.clwb.Stable := ⟨h.1, rfl⟩

theorem Stable.fence (h : c.Stable) : c.fence.Stable := ⟨h.2, h.2⟩

theorem stable_fence (h : c.late = []) : c.fence.Stable := ⟨h, h⟩

theorem durable_store (h : c.Stable) (hd : (c.store a).Durable b) : b = a ∨ b = c.cur := by
  rcases hd with hd | hd
  · exact .inl hd
  · rw [store, h.1] at hd
    exact .inr (by simpa using hd)

/-- The cell `c` has the contents of `d`, and in memory at most what `d` may have there.  If
no write-back of it was asked for, then also after the next fence. -/
structure Within (asked : Prop) (c d : Cell α) : Prop where
  cur : c.cur = d.cur
  old : ∀ a ∈ c.old, a ∈ d.old
  late : ¬ asked → ∀ a ∈ c.old, a ∈ d.late

variable {p q : Prop} {d : Cell α}

theorem Within.refl (c : Cell α) (h : c.Stable) : c.Within p c := by
  refine ⟨rfl, fun _ ha => ha, fun _ a ha => ?_⟩
  rw [h.1] at ha
  cases ha

/-- A call of `clwb` on another cell changes nothing. -/
theorem Within.asks (h : c.Within p d) (hpq : p → q) : c.Within q d :=
  ⟨h.cur, h.old, fun hq => h.late fun hp => hq (hpq hp)⟩

theorem Within.store (h : c.Within p d) (a : α) : (c.store a).Within p (d.store a) := by
  constructor
  · rfl
  · intro b hb
    rcases List.mem_append.mp hb with hb | hb
    · exact List.mem_append_left _ (h.old b hb)
    · exact List.mem_append_right _ (h.cur ▸ hb)
  · intro hp b hb
    rcases List.mem_append.mp hb with hb | hb
    · exact List.mem_append_left _ (h.late hp b hb)
    · exact List.mem_append_right _ (h.cur ▸ hb)

theorem Within.evict (h : c.Within p d) : c.evict.Within p d := by
  refine ⟨h.cur, ?_, ?_⟩
  · intro b hb
    cases hb
  · intro _ b hb
    cases hb

/-- A write-back that is asked for. -/
theorem Within.clwb (h : c.Within p d) (hq : q) : c.Within q d.clwb :=
  ⟨h.cur, h.old, fun hn => absurd hq hn⟩

/-- What was asked for is in memory when the fence comes. -/
theorem Within.fence (h : c.Within p d) (hp : p → c.old = []) : c.Within q d.fence := by
  have hlate : ∀ a ∈ c.old, a ∈ d.late := by
    intro a ha
    by_cases hc : p
    · rw [hp hc] at ha
      cases ha
    · exact h.late hc a ha
  exact ⟨h.cur, hlate, fun _ => hlate⟩

theorem Within.durable (h : c.Within p d) (ha : c.Durable a) : d.Durable a := by
  rcases ha with rfl | ha
  · exact .inl h.cur
  · exact .inr (h.old a ha)

end Cell

end Pmem
