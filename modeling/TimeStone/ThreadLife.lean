/-
The life cycle of a thread structure (`ts_thread_finish`, `ts_thread_free`,
`qp_reap_zombie_threads`).

A thread that finishes with entries left in its logs goes to the zombie list, where the QP
thread drains the logs and reaps the structures that the application has given back.  The
application gives one back with `ts_thread_free`, which releases the memory itself if the
logs are empty.  It does not look at the zombie list, and a pass of the QP thread may have
drained the logs of a zombie and left it there: such a structure is released while it is
linked, and once more by the next pass (`released_twice`).

* `inv_step` — what every step preserves if no drained zombie is given back;
* `lifeCycle_of_pending` — in runs of that kind a structure is released once, after it is
  unlinked, and no pass comes across it again.
-/
import TimeStone.Lib.Run
import Mathlib.Data.List.Nodup

namespace TimeStone.ThreadLife

/-- `live_status`. -/
inductive LiveStatus
  | live
  | liveZombie
  | deadZombie
  deriving DecidableEq

/-- What the application does next with a structure: it is registered by `ts_thread_init`,
leaves the live list and looks at its logs in `ts_thread_finish`, and stores its status and
looks at its logs in `ts_thread_free`. -/
inductive Pc
  | unused
  | running
  | finishTest
  | zombinize
  | finished
  | freeTest
  | freed
  deriving DecidableEq

/-- `ts_thread_struct_t`: the status and how much of the two logs is used.  `zombinized`
records that `ts_thread_finish` has put the structure on the zombie list. -/
structure Thread where
  pc : Pc
  liveStatus : LiveStatus
  tvlogUsed : ℕ
  ckptlogUsed : ℕ
  zombinized : Bool
  deriving DecidableEq

/-- The loop of `qp_reap_zombie_threads`: outside, or with the lock of the list and the
structures that are left before the reclamation of the next one, after the reclamation of
one, and in `ts_thread_free` for one that is unlinked. -/
inductive Reaper
  | idle
  | scan (todo : List ℕ)
  | check (t : ℕ) (todo : List ℕ)
  | free (t : ℕ) (todo : List ℕ)
  deriving DecidableEq

/-- The structures, the lists `g_live_threads` and `g_zombie_threads`, and the structures
that were given to `port_free`. -/
structure State where
  threads : ℕ → Thread
  live : List ℕ
  zombies : List ℕ
  reaper : Reaper
  released : List ℕ

inductive Action
  | init (t : ℕ)
  | run (t tvlogUsed ckptlogUsed : ℕ)
  | deregister (t : ℕ)
  | finishTest (t : ℕ)
  | zombinize (t : ℕ)
  | freeStore (t : ℕ)
  | freeTest (t : ℕ)
  | lock
  | unlock
  | reclaim (tvlogUsed ckptlogUsed : ℕ)
  | check
  | reap
  deriving DecidableEq

/-- No structure is registered. -/
def initial : State where
  threads := fun _ => ⟨.unused, .live, 0, 0, false⟩
  live := []
  zombies := []
  reaper := .idle
  released := []

/-- Both logs are completely reclaimed. -/
def Thread.Drained (T : Thread) : Prop := T.tvlogUsed = 0 ∧ T.ckptlogUsed = 0

instance (T : Thread) : Decidable T.Drained := inferInstanceAs (Decidable (_ ∧ _))

/-- Replace the structure `t`. -/
def State.setThread (s : State) (t : ℕ) (T : Thread) : State :=
  { s with threads := Function.update s.threads t T }

/-- The end of `ts_thread_free`. -/
def freeIfDrained (s : State) (t : ℕ) : State :=
  if (s.threads t).Drained then { s with released := s.released ++ [t] } else s

def step (s : State) : Action → Option State
  | .init t =>
    if (s.threads t).pc = .unused then
      some { s.setThread t ⟨.running, .live, 0, 0, false⟩ with live := t :: s.live }
    else none
  | .run t tv ck =>
    -- transactions fill the logs, and `try_reclaim_logs` drains them
    let T := s.threads t
    if T.pc = .running then
      some (s.setThread t { T with tvlogUsed := tv, ckptlogUsed := ck })
    else none
  | .deregister t =>
    let T := s.threads t
    if T.pc = .running then
      some { s.setThread t { T with pc := .finishTest } with live := s.live.erase t }
    else none
  | .finishTest t =>
    let T := s.threads t
    if T.pc = .finishTest then
      if T.Drained then some (s.setThread t { T with pc := .finished })
      else some (s.setThread t { T with pc := .zombinize, liveStatus := .liveZombie })
    else none
  | .zombinize t =>
    let T := s.threads t
    if T.pc = .zombinize ∧ s.reaper = .idle then
      some { s.setThread t { T with pc := .finished, zombinized := true } with
        zombies := t :: s.zombies }
    else none
  | .freeStore t =>
    let T := s.threads t
    if T.pc = .finished then
      some (s.setThread t { T with pc := .freeTest, liveStatus := .deadZombie })
    else none
  | .freeTest t =>
    let T := s.threads t
    if T.pc = .freeTest then some (freeIfDrained (s.setThread t { T with pc := .freed }) t)
    else none
  | .lock =>
    if s.reaper = .idle then some { s with reaper := .scan s.zombies } else none
  | .unlock =>
    -- at the end of the list, or when a thread waits for the lock
    match s.reaper with
    | .scan _ => some { s with reaper := .idle }
    | _ => none
  | .reclaim tv ck =>
    match s.reaper with
    | .scan (t :: todo) =>
      let T := s.threads t
      -- `tvlog_reclaim` may move entries to the ckptlog
      if tv ≤ T.tvlogUsed ∧ (T.tvlogUsed = 0 → ck ≤ T.ckptlogUsed) then
        some { s.setThread t { T with tvlogUsed := tv, ckptlogUsed := ck } with
          reaper := .check t todo }
      else none
    | _ => none
  | .check =>
    match s.reaper with
    | .check t todo =>
      let T := s.threads t
      if T.Drained ∧ T.liveStatus = .deadZombie then
        some { s with zombies := s.zombies.erase t, reaper := .free t todo }
      else some { s with reaper := .scan todo }
    | _ => none
  | .reap =>
    match s.reaper with
    | .free t todo =>
      let T := s.threads t
      some { freeIfDrained (s.setThread t { T with liveStatus := .deadZombie }) t with
        reaper := .scan todo }
    | _ => none

/-- The states of the runs in which every step meets `ok`. -/
abbrev Reachable (ok : State → Action → Prop) : State → Prop :=
  Run.Reach (· = initial) step ok

/-- The structures that the pass of the QP thread still touches. -/
def Reaper.pending : Reaper → List ℕ
  | idle => []
  | scan todo => todo
  | check t todo => t :: todo
  | free t todo => t :: todo

/-- The memory of a structure is released at most once, never while the structure is
linked, and the pass of the QP thread comes across no structure that is released. -/
structure LifeCycle (s : State) : Prop where
  once : s.released.Nodup
  unlinked : ∀ t ∈ s.released, t ∉ s.live ∧ t ∉ s.zombies
  visits : ∀ t ∈ s.reaper.pending, t ∉ s.released

/-- Whenever `ts_thread_free` looks at the logs of a structure that `ts_thread_finish` has
put on the zombie list, they are not yet completely reclaimed. -/
def FreesPending (s : State) : Action → Prop
  | .freeTest t => (s.threads t).zombinized → ¬ (s.threads t).Drained
  | _ => True

instance (s : State) (a : Action) : Decidable (FreesPending s a) :=
  match a with
  | .freeTest t => inferInstanceAs (Decidable ((s.threads t).zombinized → ¬ (s.threads t).Drained))
  | .init _ | .run .. | .deregister _ | .finishTest _ | .zombinize _ | .freeStore _ | .lock
  | .unlock | .reclaim .. | .check | .reap => inferInstanceAs (Decidable True)

/-- Where the pass stands. -/
def Reaper.Ok (s : State) : Reaper → Prop
  | idle => True
  | scan todo => todo.Nodup ∧ ∀ u ∈ todo, u ∈ s.zombies
  | check t todo => (t :: todo).Nodup ∧ ∀ u ∈ t :: todo, u ∈ s.zombies
  | free t todo => (t :: todo).Nodup ∧ (∀ u ∈ todo, u ∈ s.zombies) ∧ t ∉ s.zombies ∧
      t ∉ s.released ∧ (s.threads t).zombinized ∧ (s.threads t).liveStatus = .deadZombie

/-- What holds of one structure, by the lists it is on. -/
structure Thread.Ok (T : Thread) (live zombie released : Prop) : Prop where
  live : live → T.pc = .running
  zombie : zombie → T.zombinized ∧ ¬ released
  zombinized : T.zombinized → T.pc = .finished ∨ T.pc = .freeTest ∨ T.pc = .freed
  dead : T.liveStatus = .deadZombie → T.pc = .freeTest ∨ T.pc = .freed
  released : released → T.pc = .freed ∨ T.zombinized ∧ T.pc = .freeTest

structure Inv (s : State) : Prop where
  live : s.live.Nodup
  zombies : s.zombies.Nodup
  released : s.released.Nodup
  threads : ∀ t, (s.threads t).Ok (t ∈ s.live) (t ∈ s.zombies) (t ∈ s.released)
  reaper : s.reaper.Ok s

variable {s s' : State} {a : Action} {t : ℕ} {T : Thread}

@[simp] theorem setThread_threads (u : ℕ) :
    (s.setThread t T).threads u = if u = t then T else s.threads u := by
  exact Function.update_apply ..

@[simp] theorem setThread_live : (s.setThread t T).live = s.live := rfl

@[simp] theorem setThread_zombies : (s.setThread t T).zombies = s.zombies := rfl

@[simp] theorem setThread_reaper : (s.setThread t T).reaper = s.reaper := rfl

@[simp] theorem setThread_released : (s.setThread t T).released = s.released := rfl

/-- A step on one structure keeps the invariant if it does so for that structure and for
the pass. -/
theorem Inv.of_local (h : Inv s) (t : ℕ) (hlive : s'.live.Nodup) (hzombies : s'.zombies.Nodup)
    (hreleased : s'.released.Nodup)
    (hframe : ∀ u, u ≠ t → s'.threads u = s.threads u ∧ (u ∈ s'.live ↔ u ∈ s.live) ∧
      (u ∈ s'.zombies ↔ u ∈ s.zombies) ∧ (u ∈ s'.released ↔ u ∈ s.released))
    (ht : (s'.threads t).Ok (t ∈ s'.live) (t ∈ s'.zombies) (t ∈ s'.released))
    (hreaper : s'.reaper.Ok s') : Inv s' where
  live := hlive
  zombies := hzombies
  released := hreleased
  threads := by
    intro u
    by_cases hu : u = t
    · rw [hu]
      exact ht
    · obtain ⟨h1, h2, h3, h4⟩ := hframe u hu
      rw [h1, h2, h3, h4]
      exact h.threads u
  reaper := hreaper

/-- The pass is where it was, if no zombie is taken from it. -/
theorem Reaper.Ok.mono {r : Reaper} (h : r.Ok s) (hz : ∀ u, u ∈ s.zombies ↔ u ∈ s'.zombies)
    (hfree : ∀ u todo, r = .free u todo → u ∉ s.released → (s.threads u).zombinized →
      (s.threads u).liveStatus = .deadZombie → u ∉ s'.released ∧ (s'.threads u).zombinized ∧
        (s'.threads u).liveStatus = .deadZombie) : r.Ok s' := by
  cases r with
  | idle => trivial
  | scan todo => exact ⟨h.1, fun u hu => (hz u).mp (h.2 u hu)⟩
  | check t todo => exact ⟨h.1, fun u hu => (hz u).mp (h.2 u hu)⟩
  | free t todo =>
    obtain ⟨h1, h2, h3, h4, h5, h6⟩ := h
    exact ⟨h1, fun u hu => (hz u).mp (h2 u hu), fun hu => h3 ((hz t).mpr hu),
      hfree t todo rfl h4 h5 h6⟩

theorem inv_initial : Inv initial := by
  constructor
  · exact List.nodup_nil
  · exact List.nodup_nil
  · exact List.nodup_nil
  · intro t
    constructor <;> simp [initial]
  · trivial

/-- The structure that the pass is about to free was given back. -/
theorem Inv.free (h : Inv s) {todo : List ℕ} (hr : s.reaper = .free t todo) :
    t ∉ s.zombies ∧ t ∉ s.released ∧ (s.threads t).zombinized ∧
      ((s.threads t).pc = .freeTest ∨ (s.threads t).pc = .freed) := by
  have hok := h.reaper
  rw [hr] at hok
  obtain ⟨-, -, h1, h2, h3, h4⟩ := hok
  exact ⟨h1, h2, h3, (h.threads t).dead h4⟩

/-- A step of the application on a structure it has not given back, with a new list of
live threads. -/
theorem Inv.setThread (h : Inv s) (hpc : (s.threads t).pc ≠ .freeTest ∧ (s.threads t).pc ≠ .freed)
    {live : List ℕ} (hlive : live.Nodup) (hframe : ∀ u, u ≠ t → (u ∈ live ↔ u ∈ s.live))
    (hT : T.Ok (t ∈ live) (t ∈ s.zombies) (t ∈ s.released)) :
    Inv { s.setThread t T with live := live } := by
  refine h.of_local t hlive h.zombies h.released ?_ ?_ ?_
  · intro u hu
    simp [hu, hframe u hu]
  · simpa using hT
  · refine h.reaper.mono (fun u => Iff.rfl) fun u todo hr h1 h2 h3 => ?_
    have hu : u ≠ t := by
      rintro rfl
      rcases (h.free hr).2.2.2 with hp | hp
      · exact hpc.1 hp
      · exact hpc.2 hp
    simpa [hu] using ⟨h1, h2, h3⟩

theorem inv_init (h : Inv s) (hpc : (s.threads t).pc = .unused) :
    Inv { s.setThread t ⟨.running, .live, 0, 0, false⟩ with live := t :: s.live } := by
  have hnl : t ∉ s.live := by
    intro hm
    have hrun := (h.threads t).live hm
    rw [hpc] at hrun
    cases hrun
  refine h.setThread ?_ (List.nodup_cons.mpr ⟨hnl, h.live⟩) ?_ ?_
  · rw [hpc]
    simp
  · intro u hu
    simp [hu]
  · have hok := h.threads t
    constructor <;> grind [Thread.Ok]

theorem inv_run (h : Inv s) (tv ck : ℕ) (hpc : (s.threads t).pc = .running) :
    Inv (s.setThread t { s.threads t with tvlogUsed := tv, ckptlogUsed := ck }) := by
  refine h.setThread ?_ h.live (fun u _ => Iff.rfl) ?_
  · rw [hpc]
    simp
  · have hok := h.threads t
    constructor <;> grind [Thread.Ok]

theorem inv_deregister (h : Inv s) (hpc : (s.threads t).pc = .running) :
    Inv { s.setThread t { s.threads t with pc := .finishTest } with live := s.live.erase t } := by
  refine h.setThread ?_ (h.live.erase t) ?_ ?_
  · rw [hpc]
    simp
  · intro u hu
    exact List.mem_erase_of_ne hu
  · have hok := h.threads t
    have hnot : t ∉ s.live.erase t := h.live.not_mem_erase
    constructor <;> grind [Thread.Ok]

theorem inv_finishTest (h : Inv s) (hpc : (s.threads t).pc = .finishTest) {pc : Pc}
    {status : LiveStatus} (hst : status = .deadZombie → (s.threads t).liveStatus = .deadZombie) :
    Inv (s.setThread t { s.threads t with pc := pc, liveStatus := status }) := by
  refine h.setThread ?_ h.live (fun u _ => Iff.rfl) ?_
  · rw [hpc]
    simp
  · have hok := h.threads t
    constructor <;> grind [Thread.Ok]

theorem inv_freeStore (h : Inv s) (hpc : (s.threads t).pc = .finished) :
    Inv (s.setThread t { s.threads t with pc := .freeTest, liveStatus := .deadZombie }) := by
  refine h.setThread ?_ h.live (fun u _ => Iff.rfl) ?_
  · rw [hpc]
    simp
  · have hok := h.threads t
    constructor <;> grind [Thread.Ok]

theorem inv_zombinize (h : Inv s) (hpc : (s.threads t).pc = .zombinize) (hr : s.reaper = .idle) :
    Inv { s.setThread t { s.threads t with pc := .finished, zombinized := true } with
      zombies := t :: s.zombies } := by
  have hok := h.threads t
  have hnz : t ∉ s.zombies := by
    intro hm
    have hz := hok.zombinized (hok.zombie hm).1
    grind
  refine h.of_local t h.live (List.nodup_cons.mpr ⟨hnz, h.zombies⟩) h.released ?_ ?_ ?_
  · intro u hu
    simp [hu]
  · simp only [setThread_threads, if_true, setThread_live, setThread_released]
    constructor <;> grind [Thread.Ok]
  · show s.reaper.Ok _
    rw [hr]
    trivial

theorem nodup_release {l : List ℕ} (h : l.Nodup) (ht : t ∉ l) : (l ++ [t]).Nodup := by
  rw [← List.concat_eq_append]
  exact h.concat ht

/-- `ts_thread_free` leaves a zombie to the pass, and releases a structure that was never
one. -/
theorem inv_freeTest (h : Inv s) (hpc : (s.threads t).pc = .freeTest)
    (hok : (s.threads t).zombinized → ¬ (s.threads t).Drained) :
    Inv (freeIfDrained (s.setThread t { s.threads t with pc := .freed }) t) := by
  have ht := h.threads t
  unfold freeIfDrained
  simp only [setThread_threads, if_true]
  split
  · rename_i hd
    have hz : ¬ (s.threads t).zombinized := fun hz => hok hz hd
    have hnr : t ∉ s.released := by
      intro hm
      rcases ht.released hm with hp | hp
      · rw [hpc] at hp
        cases hp
      · exact hz hp.1
    refine h.of_local t h.live h.zombies ?_ ?_ ?_ ?_
    · exact nodup_release h.released hnr
    · intro u hu
      simp [hu]
    · simp only [setThread_threads, if_true, setThread_live, setThread_zombies]
      constructor <;> grind [Thread.Ok]
    · refine h.reaper.mono (fun u => Iff.rfl) fun u todo hr h1 h2 h3 => ?_
      have hu : u ≠ t := by
        rintro rfl
        exact hz h2
      simpa [hu] using ⟨h1, h2, h3⟩
  · refine h.of_local t h.live h.zombies h.released ?_ ?_ ?_
    · intro u hu
      simp [hu]
    · simp only [setThread_threads, if_true, setThread_live, setThread_zombies,
        setThread_released]
      constructor <;> grind [Thread.Ok]
    · refine h.reaper.mono (fun u => Iff.rfl) fun u todo hr h1 h2 h3 => ?_
      by_cases hu : u = t
      · subst hu
        simpa using ⟨h1, h2, h3⟩
      · simpa [hu] using ⟨h1, h2, h3⟩

theorem inv_lock (h : Inv s) : Inv { s with reaper := .scan s.zombies } :=
  ⟨h.live, h.zombies, h.released, h.threads, h.zombies, fun _ hu => hu⟩

theorem inv_reclaim (h : Inv s) {todo : List ℕ} (hr : s.reaper = .scan (t :: todo)) (tv ck : ℕ) :
    Inv { s.setThread t { s.threads t with tvlogUsed := tv, ckptlogUsed := ck } with
      reaper := .check t todo } := by
  have hscan := h.reaper
  rw [hr] at hscan
  refine h.of_local t h.live h.zombies h.released ?_ ?_ hscan
  · intro u hu
    simp [hu]
  · have ht := h.threads t
    simp only [setThread_threads, if_true]
    exact ⟨ht.live, ht.zombie, ht.zombinized, ht.dead, ht.released⟩

/-- A zombie that was given back is unlinked when its logs are drained. -/
theorem inv_check (h : Inv s) {todo : List ℕ} (hr : s.reaper = .check t todo)
    (hdead : (s.threads t).liveStatus = .deadZombie) :
    Inv { s with zombies := s.zombies.erase t, reaper := .free t todo } := by
  have hcheck := h.reaper
  rw [hr] at hcheck
  obtain ⟨hnd, hmem⟩ := hcheck
  have hz := (h.threads t).zombie (hmem t (List.mem_cons_self ..))
  have hnot : t ∉ s.zombies.erase t := h.zombies.not_mem_erase
  refine h.of_local t h.live (h.zombies.erase t) h.released ?_ ?_ ?_
  · intro u hu
    exact ⟨rfl, Iff.rfl, List.mem_erase_of_ne hu, Iff.rfl⟩
  · have ht := h.threads t
    exact ⟨ht.live, fun hm => absurd hm hnot, ht.zombinized, ht.dead, ht.released⟩
  · refine ⟨hnd, fun u hu => ?_, hnot, hz.2, hz.1, hdead⟩
    have hne : u ≠ t := by
      rintro rfl
      exact (List.nodup_cons.mp hnd).1 hu
    exact (List.mem_erase_of_ne hne).mpr (hmem u (List.mem_cons_of_mem _ hu))

theorem inv_reap (h : Inv s) {todo : List ℕ} (hr : s.reaper = .free t todo) :
    Inv { freeIfDrained (s.setThread t { s.threads t with liveStatus := .deadZombie }) t with
      reaper := .scan todo } := by
  obtain ⟨hnz, hnr, hz, hpc⟩ := h.free hr
  have hfree := h.reaper
  rw [hr] at hfree
  have htodo : todo.Nodup ∧ ∀ u ∈ todo, u ∈ s.zombies := ⟨(List.nodup_cons.mp hfree.1).2, hfree.2.1⟩
  have ht := h.threads t
  unfold freeIfDrained
  split
  · refine h.of_local t h.live h.zombies (nodup_release h.released hnr) ?_ ?_ htodo
    · intro u hu
      simp [hu]
    · simp only [setThread_threads, if_true, setThread_live, setThread_zombies]
      constructor <;> grind [Thread.Ok]
  · refine h.of_local t h.live h.zombies h.released ?_ ?_ htodo
    · intro u hu
      simp [hu]
    · simp only [setThread_threads, if_true, setThread_live, setThread_zombies,
        setThread_released]
      exact ⟨ht.live, ht.zombie, ht.zombinized, fun _ => hpc, ht.released⟩

theorem inv_step (h : Inv s) (hok : FreesPending s a) (hs : step s a = some s') : Inv s' := by
  cases a with
  | init t =>
    simp only [step, Option.ite_none_right_eq_some, Option.some_inj] at hs
    obtain ⟨hpc, rfl⟩ := hs
    exact inv_init h hpc
  | run t tv ck =>
    simp only [step, Option.ite_none_right_eq_some, Option.some_inj] at hs
    obtain ⟨hpc, rfl⟩ := hs
    exact inv_run h tv ck hpc
  | deregister t =>
    simp only [step, Option.ite_none_right_eq_some, Option.some_inj] at hs
    obtain ⟨hpc, rfl⟩ := hs
    exact inv_deregister h hpc
  | finishTest t =>
    simp only [step, Option.ite_none_right_eq_some] at hs
    obtain ⟨hpc, hs⟩ := hs
    split at hs
    · cases hs
      exact inv_finishTest h hpc id
    · cases hs
      exact inv_finishTest h hpc (fun hd => nomatch hd)
  | zombinize t =>
    simp only [step, Option.ite_none_right_eq_some, Option.some_inj] at hs
    obtain ⟨⟨hpc, hr⟩, rfl⟩ := hs
    exact inv_zombinize h hpc hr
  | freeStore t =>
    simp only [step, Option.ite_none_right_eq_some, Option.some_inj] at hs
    obtain ⟨hpc, rfl⟩ := hs
    exact inv_freeStore h hpc
  | freeTest t =>
    simp only [step, Option.ite_none_right_eq_some, Option.some_inj] at hs
    obtain ⟨hpc, rfl⟩ := hs
    exact inv_freeTest h hpc hok
  | lock =>
    simp only [step, Option.ite_none_right_eq_some, Option.some_inj] at hs
    obtain ⟨-, rfl⟩ := hs
    exact inv_lock h
  | unlock =>
    simp only [step] at hs
    split at hs
    · cases hs
      exact ⟨h.live, h.zombies, h.released, h.threads, trivial⟩
    · cases hs
  | reclaim tv ck =>
    simp only [step] at hs
    split at hs
    · rename_i hr
      simp only [Option.ite_none_right_eq_some, Option.some_inj] at hs
      obtain ⟨-, rfl⟩ := hs
      exact inv_reclaim h hr tv ck
    · cases hs
  | check =>
    simp only [step] at hs
    split at hs
    · rename_i t todo hr
      split at hs
      · rename_i hd
        cases hs
        exact inv_check h hr hd.2
      · cases hs
        have hcheck := h.reaper
        rw [hr] at hcheck
        exact ⟨h.live, h.zombies, h.released, h.threads, (List.nodup_cons.mp hcheck.1).2,
          fun u hu => hcheck.2 u (List.mem_cons_of_mem _ hu)⟩
    · cases hs
  | reap =>
    simp only [step] at hs
    split at hs
    · rename_i hr
      cases hs
      exact inv_reap h hr
    · cases hs

theorem Inv.lifeCycle (h : Inv s) : LifeCycle s where
  once := h.released
  unlinked := by
    intro t ht
    have hok := h.threads t
    constructor
    · intro hl
      have hpc := hok.live hl
      grind [Thread.Ok]
    · intro hz
      exact (hok.zombie hz).2 ht
  visits := by
    intro t ht
    have hok := h.reaper
    -- the pass holds structures of the zombie list, and one it has just unlinked
    cases hr : s.reaper with
    | idle =>
      rw [hr] at ht
      cases ht
    | scan todo =>
      rw [hr] at ht hok
      exact ((h.threads t).zombie (hok.2 t ht)).2
    | check u todo =>
      rw [hr] at ht hok
      exact ((h.threads t).zombie (hok.2 t ht)).2
    | free u todo =>
      rw [hr] at ht hok
      rcases List.mem_cons.mp ht with rfl | ht
      · exact hok.2.2.2.1
      · exact ((h.threads t).zombie (hok.2.1 t ht)).2

/-- In every run in which no drained zombie is given back, a structure is released at most
once and after it is unlinked, and no pass comes across it again. -/
theorem lifeCycle_of_pending (h : Reachable FreesPending s) : LifeCycle s := by
  refine Inv.lifeCycle (h.invariant ?_ ?_)
  · rintro _ rfl
    exact inv_initial
  · intro s a s' hinv hok hs
    exact inv_step hinv hok hs

/-- A thread finishes with an entry in its log and gives the structure back while the entry
is there; the pass releases it. -/
theorem reaped_by_pass : ∃ s, Reachable FreesPending s ∧ s.released = [0] ∧ LifeCycle s := by
  have hd : (Run.exec step FreesPending initial
      [.init 0, .run 0 1 0, .deregister 0, .finishTest 0, .zombinize 0, .freeStore 0, .freeTest 0,
        .lock, .reclaim 0 0, .check, .reap, .unlock]).map (fun s => decide (s.released = [0])) =
      some true := by
    decide
  obtain ⟨s, hr, hp⟩ : ∃ s, Reachable FreesPending s ∧ _ :=
    Run.Reach.exists_of_exec (.init rfl) hd
  exact ⟨s, hr, hp, lifeCycle_of_pending hr⟩

/-- A pass drains the logs of a thread that has finished, the application gives the
structure back, and the next pass releases it again. -/
theorem released_twice : ∃ s, Reachable Run.any s ∧ s.released = [0, 0] ∧ ¬ LifeCycle s := by
  have hd : (Run.exec step Run.any initial
      [.init 0, .run 0 1 0, .deregister 0, .finishTest 0, .zombinize 0,
        .lock, .reclaim 0 0, .check, .unlock, .freeStore 0, .freeTest 0,
        .lock, .reclaim 0 0, .check, .reap]).map (fun s => decide (s.released = [0, 0])) =
      some true := by
    decide
  obtain ⟨s, hs, hp⟩ := Option.map_eq_some_iff.mp hd
  have hrel := of_decide_eq_true hp
  refine ⟨s, Run.Reach.of_exec (.init rfl) hs, hrel, fun hl => ?_⟩
  have hnd := hl.once
  rw [hrel] at hnd
  simp at hnd

end TimeStone.ThreadLife
