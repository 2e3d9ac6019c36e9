/-
Keeping the newest value of every key.

A list of values with keys is folded into a map that has one value for each key; a value
replaces the one that is kept if its clock is later.

* `isNewest_foldl` — the map holds, for every key of the list, a value with the latest clock;
* `IsNewest.clk_eq` — that clock does not depend on the order of the list.
-/
import Mathlib.Tactic.Common
import Mathlib.Logic.Function.Basic
import Mathlib.Data.List.Perm.Basic
import Mathlib.Order.Lattice

namespace Newest

variable {K V T : Type*} [LinearOrder T] (clk : V → T)

/-- `v` is a value of `k` with the latest clock, or there is none. -/
def IsNewest (ps : List (K × V)) (k : K) : Option V → Prop
  | none => ∀ w, (k, w) ∉ ps
  | some v => (k, v) ∈ ps ∧ ∀ w, (k, w) ∈ ps → clk w ≤ clk v

variable {clk} {ps qs : List (K × V)} {m : K → Option V} {k : K} {v w : V}

/-- The latest clock of a key does not depend on the order. -/
theorem IsNewest.clk_eq (hperm : ps.Perm qs) (hv : IsNewest clk ps k (some v))
    (hw : IsNewest clk qs k (some w)) : clk v = clk w :=
  le_antisymm (hw.2 v (hperm.mem_iff.mp hv.1)) (hv.2 w (hperm.mem_iff.mpr hw.1))

variable [DecidableEq K]

variable (clk) in
/-- Keep the later one of a new value and the value that is kept for its key. -/
def keep (m : K → Option V) (p : K × V) : K → Option V :=
  Function.update m p.1 <|
    match m p.1 with
    | none => some p.2
    | some w => if clk w < clk p.2 then some p.2 else some w

theorem IsNewest.keep (h : ∀ k, IsNewest clk ps k (m k)) (p : K × V) (k : K) :
    IsNewest clk (ps ++ [p]) k (keep clk m p k) := by
  obtain ⟨i, x⟩ := p
  have hk := h k
  by_cases hki : k = i
  · subst hki
    rw [Newest.keep, Function.update_self]
    cases hm : m k with
    | none =>
      rw [hm] at hk
      refine ⟨by simp, fun w hw => ?_⟩
      rcases List.mem_append.mp hw with hw | hw
      · exact absurd hw (hk w)
      · rw [List.mem_singleton, Prod.mk.injEq] at hw
        rw [hw.2]
    | some y =>
      rw [hm] at hk
      obtain ⟨hy, hmax⟩ := hk
      simp only
      split
      · rename_i hlt
        refine ⟨by simp, fun w hw => ?_⟩
        rcases List.mem_append.mp hw with hw | hw
        · exact le_trans (hmax w hw) (le_of_lt hlt)
        · rw [List.mem_singleton, Prod.mk.injEq] at hw
          rw [hw.2]
      · rename_i hle
        refine ⟨List.mem_append_left _ hy, fun w hw => ?_⟩
        rcases List.mem_append.mp hw with hw | hw
        · exact hmax w hw
        · rw [List.mem_singleton, Prod.mk.injEq] at hw
          rw [hw.2]
          exact not_lt.mp hle
  · rw [Newest.keep, Function.update_of_ne hki]
    have hmem : ∀ w, (k, w) ∈ ps ++ [(i, x)] ↔ (k, w) ∈ ps := by simp [hki]
    cases hm : m k with
    | none =>
      rw [hm] at hk
      exact fun w hw => hk w ((hmem w).mp hw)
    | some y =>
      rw [hm] at hk
      exact ⟨(hmem y).mpr hk.1, fun w hw => hk.2 w ((hmem w).mp hw)⟩

/-- The fold keeps a newest value of every key. -/
theorem isNewest_foldl (qs : List (K × V)) :
    ∀ (ps : List (K × V)) (m : K → Option V), (∀ k, IsNewest clk ps k (m k)) →
      ∀ k, IsNewest clk (ps ++ qs) k (qs.foldl (keep clk) m k) := by
  induction qs with
  | nil =>
    intro ps m h k
    rw [List.append_nil]
    exact h k
  | cons q qs ih =>
    intro ps m h k
    have happ : ps ++ q :: qs = ps ++ [q] ++ qs := by simp
    rw [happ]
    exact ih _ _ (IsNewest.keep h q) k

end Newest
