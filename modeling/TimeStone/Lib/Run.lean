/-
Runs of a machine whose steps may fail.

A machine is a function `step : σ → ι → Option σ`; an input `i : ι` names the
action taken, and `none` says that the action is not enabled.  `Reach init
step ok` is the set of states that some run reaches from an initial state when
every action of the run is taken in a state where `ok` allows it.

* `Reach.invariant` — an invariant that holds initially and that every allowed
  step preserves holds in every state reached;
* `Reach.mono` — a run that keeps to a stronger condition keeps to a weaker one;
* `Reach.of_exec` — the state computed by `exec` along a list of actions is
  reached;
* `Reach.exists_of_exec` — so a state with a decidable property is reached, which
  is how concrete runs are exhibited.
-/
import Mathlib.Tactic.Common
import Mathlib.Data.List.Basic

namespace Run

variable {σ ι : Type*}

/-- The states that runs from `init` reach, every step being allowed by `ok`
in the state before it. -/
inductive Reach (init : σ → Prop) (step : σ → ι → Option σ) (ok : σ → ι → Prop) :
    σ → Prop
  | init {s : σ} : init s → Reach init step ok s
  | step {s s' : σ} {i : ι} :
      Reach init step ok s → ok s i → step s i = some s' → Reach init step ok s'

/-- The condition that allows every action. -/
def any (_ : σ) (_ : ι) : Prop := True

instance (s : σ) (i : ι) : Decidable (any s i) := inferInstanceAs (Decidable True)

/-- Run a list of actions, failing when one of them is not allowed or not
enabled. -/
def exec (step : σ → ι → Option σ) (ok : σ → ι → Prop) [∀ s i, Decidable (ok s i)] :
    σ → List ι → Option σ
  | s, [] => some s
  | s, i :: is => if ok s i then (step s i).bind fun s' => exec step ok s' is else none

variable {init : σ → Prop} {step : σ → ι → Option σ} {ok ok' : σ → ι → Prop}

/-- The first action of a list that executes. -/
theorem exec_cons_eq_some [∀ s i, Decidable (ok s i)] {i : ι} {is : List ι} {s s' : σ} :
    exec step ok s (i :: is) = some s' ↔
      ok s i ∧ ∃ s₁, step s i = some s₁ ∧ exec step ok s₁ is = some s' := by
  rw [exec, Option.ite_none_right_eq_some, Option.bind_eq_some_iff]

/-- Invariant rule. -/
theorem Reach.invariant {I : σ → Prop} (h0 : ∀ s, init s → I s)
    (hstep : ∀ s i s', I s → ok s i → step s i = some s' → I s') {s : σ}
    (h : Reach init step ok s) : I s := by
  induction h with
  | init hs => exact h0 _ hs
  | step _ hok hs ih => exact hstep _ _ _ ih hok hs

/-- A run allowed by `ok` is allowed by every weaker condition. -/
theorem Reach.mono (h : ∀ s i, ok s i → ok' s i) {s : σ}
    (hr : Reach init step ok s) : Reach init step ok' s := by
  induction hr with
  | init hs => exact .init hs
  | step _ hok hs ih => exact .step ih (h _ _ hok) hs

/-- A list of actions that executes from a reached state reaches its result. -/
theorem Reach.of_exec [∀ s i, Decidable (ok s i)] {is : List ι} :
    ∀ {s s' : σ}, Reach init step ok s → exec step ok s is = some s' →
      Reach init step ok s' := by
  induction is with
  | nil =>
    intro s s' hr h
    rw [exec, Option.some_inj] at h
    exact h ▸ hr
  | cons i is ih =>
    intro s s' hr h
    obtain ⟨hok, s₁, h1, h2⟩ := exec_cons_eq_some.mp h
    exact ih (hr.step hok h1) h2

/-- A list of actions that executes, with a property of its result, shows that a state with
this property is reached. -/
theorem Reach.exists_of_exec [∀ s i, Decidable (ok s i)] {P : σ → Prop} [DecidablePred P]
    {is : List ι} {s : σ} (hr : Reach init step ok s)
    (h : (exec step ok s is).map (fun s => decide (P s)) = some true) :
    ∃ s', Reach init step ok s' ∧ P s' := by
  obtain ⟨s', hs, hP⟩ := Option.map_eq_some_iff.mp h
  exact ⟨s', hr.of_exec hs, of_decide_eq_true hP⟩

end Run
