/-
A stack kept in an array from its start on.

`Holds a n st` says that the first `n` elements of `a` are the stack `st`, the one pushed first
at index 0; a stack is a list with its top in front.

* `Holds.push` — storing behind the last element pushes;
* `Holds.tail` — counting one element less pops;
* `Holds.top` — the top is the last element;
* `Holds.mem_iff` — the elements of the stack are those that a search of the array finds.
-/
import Mathlib.Data.List.Range
import Mathlib.Data.Nat.Notation

namespace ArrayStack

variable {α : Type*} {a b : ℕ → α} {n : ℕ} {st : List α} {x : α}

/-- The first `n` elements of `a` are the stack `st`. -/
def Holds (a : ℕ → α) (n : ℕ) (st : List α) : Prop := (List.range n).map a = st.reverse

theorem Holds.length (h : Holds a n st) : n = st.length := by
  have hlen := congrArg List.length h
  rwa [List.length_map, List.length_range, List.length_reverse] at hlen

theorem Holds.empty : Holds a 0 [] := rfl

/-- Only the first `n` elements matter. -/
theorem Holds.congr (h : Holds a n st) (hab : ∀ i < n, b i = a i) : Holds b n st := by
  have hmap : (List.range n).map b = (List.range n).map a :=
    List.map_congr_left fun i hi => hab i (List.mem_range.mp hi)
  exact hmap.trans h

theorem Holds.push (h : Holds a n st) (hab : ∀ i < n, b i = a i) (hx : b n = x) :
    Holds b (n + 1) (x :: st) := by
  have hb : (List.range n).map b = st.reverse := h.congr hab
  rw [Holds, List.range_succ, List.map_append, hb, List.map_singleton, hx, List.reverse_cons]

theorem Holds.tail (h : Holds a (n + 1) st) : Holds a n st.tail := by
  rw [Holds, List.range_succ, List.map_append, List.map_singleton] at h
  have htail := congrArg List.dropLast h
  rwa [List.dropLast_concat, List.dropLast_reverse] at htail

theorem Holds.top (h : Holds a (n + 1) st) : st.head? = some (a n) := by
  rw [Holds, List.range_succ, List.map_append, List.map_singleton] at h
  rw [← List.getLast?_reverse, ← h, List.getLast?_concat]

theorem Holds.mem_iff (h : Holds a n st) : x ∈ st ↔ ∃ i < n, a i = x := by
  rw [← List.mem_reverse, ← show (List.range n).map a = st.reverse from h, List.mem_map]
  simp only [List.mem_range]

end ArrayStack
