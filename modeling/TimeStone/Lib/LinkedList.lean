/-
Singly linked lists in memory.

`next a` is the pointer stored in the cell `a`, `none` for `NULL`.  `Chain next p l` says
that from the pointer `p` the cells `l` are met, in this order, before `NULL`.

* `Chain.push` — link a new cell in front;
* `Chain.unlink` — unlink a cell;
* `find_of_mem`, `find_of_notMem` — the search for a cell, which also keeps the cell in
  front of it.
-/
import Mathlib.Tactic.Common
import Mathlib.Data.List.Nodup
import Mathlib.Logic.Function.Basic

namespace LinkedList

variable {α : Type*} {next next' : α → Option α} {p : Option α} {a t x : α}
  {l pre post : List α}

/-- The cells met from the pointer `p`. -/
inductive Chain (next : α → Option α) : Option α → List α → Prop
  | nil : Chain next none []
  | cons {a : α} {l : List α} : Chain next (next a) l → Chain next (some a) (a :: l)

theorem chain_cons_iff : Chain next p (a :: l) ↔ p = some a ∧ Chain next (next a) l := by
  constructor
  · rintro (_ | h)
    exact ⟨rfl, h⟩
  · rintro ⟨rfl, h⟩
    exact .cons h

theorem chain_nil_iff : Chain next p [] ↔ p = none := by
  constructor
  · rintro ⟨⟩
    rfl
  · rintro rfl
    exact .nil

/-- A chain depends on its own cells only. -/
theorem Chain.congr (h : Chain next p l) (heq : ∀ a ∈ l, next' a = next a) :
    Chain next' p l := by
  induction h with
  | nil => exact .nil
  | cons _ ih =>
    rw [List.forall_mem_cons] at heq
    exact .cons (heq.1 ▸ ih heq.2)

variable [DecidableEq α]

theorem Chain.update (h : Chain next p l) (hx : x ∉ l) (q : Option α) :
    Chain (Function.update next x q) p l :=
  h.congr fun _ ha => Function.update_of_ne (ne_of_mem_of_not_mem ha hx) _ _

/-- Link a new cell in front. -/
theorem Chain.push (h : Chain next p l) (hx : x ∉ l) :
    Chain (Function.update next x p) (some x) (x :: l) := by
  refine .cons ?_
  rw [Function.update_self]
  exact h.update hx p

/-- Unlink the cell behind `t`. -/
theorem Chain.unlink (h : Chain next p (pre ++ t :: x :: post))
    (hnd : (pre ++ t :: x :: post).Nodup) :
    Chain (Function.update next t (next x)) p (pre ++ t :: post) := by
  induction pre generalizing p with
  | nil =>
    obtain ⟨rfl, ht⟩ := chain_cons_iff.mp h
    obtain ⟨-, hx⟩ := chain_cons_iff.mp ht
    refine .cons ?_
    rw [Function.update_self]
    simp only [List.nil_append, List.nodup_cons, List.mem_cons, not_or] at hnd
    exact hx.update hnd.1.2 _
  | cons b pre ih =>
    obtain ⟨rfl, hb⟩ := chain_cons_iff.mp h
    rw [List.cons_append, List.nodup_cons] at hnd
    refine .cons ?_
    have hne : b ≠ t := fun he => hnd.1 (by simp [he])
    rw [Function.update_of_ne hne]
    exact ih hb hnd.2

/-- `while (current != x && current != NULL) { temp = current; current = current->next; }`:
the cells `temp` and `current` behind the loop, `none` if the bound is too small. -/
def find (next : α → Option α) (x : α) : ℕ → α → Option α → Option (α × Option α)
  | _, temp, none => some (temp, none)
  | 0, _, some _ => none
  | fuel + 1, temp, some a =>
    if a = x then some (temp, some a) else find next x fuel a (next a)

theorem find_of_notMem {fuel : ℕ} (h : Chain next p l) (hx : x ∉ l) (hf : l.length ≤ fuel) :
    ∃ temp, find next x fuel t p = some (temp, none) := by
  induction h generalizing t fuel with
  | nil => exact ⟨t, by rw [find]⟩
  | @cons a l _ ih =>
    obtain ⟨fuel, rfl⟩ := Nat.exists_eq_add_of_lt hf
    rw [List.mem_cons, not_or] at hx
    rw [find, if_neg (Ne.symm hx.1)]
    exact ih hx.2 (Nat.le_add_right _ _)

/-- The search stops at the cell, with the one in front of it. -/
theorem find_of_mem {fuel : ℕ} (h : Chain next p l) (hx : x ∈ l) (hf : l.length ≤ fuel) :
    ∃ temp pre post, t :: l = pre ++ temp :: x :: post ∧
      find next x fuel t p = some (temp, some x) := by
  induction h generalizing t fuel with
  | nil => contradiction
  | @cons a l _ ih =>
    obtain ⟨fuel, rfl⟩ := Nat.exists_eq_add_of_lt hf
    rw [find]
    by_cases ha : a = x
    · subst ha
      exact ⟨t, [], l, rfl, if_pos rfl⟩
    · have hmem : x ∈ l := (List.mem_cons.mp hx).resolve_left (Ne.symm ha)
      obtain ⟨temp, pre, post, heq, hfind⟩ := ih hmem (Nat.le_add_right _ _)
      exact ⟨temp, t :: pre, post, by rw [heq, List.cons_append], by rw [if_neg ha, hfind]⟩

end LinkedList
