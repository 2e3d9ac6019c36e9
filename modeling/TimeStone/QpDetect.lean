/-
Quiescence detection (`qp_detect`).

The QP thread reads the clock, takes a snapshot of the counter `run_cnt` of every live
thread, and waits for every thread that was inside a transaction until its counter has
changed or its local clock has reached the clock read.  The clock read, less the boundary,
becomes `__qp0`.  A thread enters a transaction in three steps: it increments the counter,
reads the clock, and stores the reading as its local clock.  Between them the detection
looks at the local clock of an earlier transaction.

The clocks are those of different cores.  A reading is not behind an earlier one of the same
thread, and at most `B` behind one of another thread.  The counters are past the boundary,
which is the offset of two of them.

* `inv_step` — the detection invariant: every thread that the loop has passed, and every
  thread that registers late, starts after the clock read;
* `quiescence_sound` — the transactions that run have a local clock of at least `__qp0`.
-/
import TimeStone.Clock
import TimeStone.Lib.Run
import Mathlib.Data.List.Nodup

namespace TimeStone.QpDetect

/-- Where a thread is: outside the list of live threads, outside a transaction, between the
steps of `ts_begin`, inside a transaction, or in `ts_thread_finish`. -/
inductive Pc
  | unregistered
  | outside
  | incremented
  | gotClock (v : ℕ)
  | inTx
  | finishing
  deriving DecidableEq

/-- `ts_thread_struct_t`, and the last clock reading of the thread. -/
structure Thread where
  pc : Pc
  runCnt : UInt32
  localClk : ℕ
  needWait : Bool
  qpRunCnt : UInt32
  lastRead : ℕ

/-- Where the QP thread is in `qp_detect`, with the clock read and, inside a loop, the
threads that are left.  The lock of the list is held inside the loops; in `waitClk` the
counter of the first thread has been compared. -/
inductive Pos
  | idle
  | gotClock (clk : ℕ)
  | init (clk : ℕ) (todo : List ℕ)
  | initDone (clk : ℕ)
  | wait (clk : ℕ) (todo : List ℕ)
  | waitClk (clk t : ℕ) (todo : List ℕ)
  | waited (clk : ℕ)
  deriving DecidableEq

structure State where
  threads : ℕ → Thread
  live : List ℕ
  pos : Pos
  qp0 : ℕ
  qp1 : ℕ
  qp2 : ℕ
  qpLastRead : ℕ
  lastClk : ℕ

/-- No thread is registered. -/
def initial : State where
  threads := fun _ => ⟨.unregistered, 0, 0, false, 0, 0⟩
  live := []
  pos := .idle
  qp0 := 0
  qp1 := 0
  qp2 := 0
  qpLastRead := 0
  lastClk := 0

/-- `v` is a reading of the clock of a thread that has last read `u`. -/
def Reading (B : ℕ) (s : State) (u v : ℕ) : Prop := u ≤ v ∧ s.lastClk ≤ v + B ∧ B ≤ v

instance (B : ℕ) (s : State) (u v : ℕ) : Decidable (Reading B s u v) :=
  inferInstanceAs (Decidable (_ ∧ _))

/-- The QP thread holds the lock of the list. -/
def Pos.Locked : Pos → Bool
  | init .. | wait .. | waitClk .. => true
  | idle | gotClock _ | initDone _ | waited _ => false

/-- Replace the thread `t`. -/
def State.setThread (s : State) (t : ℕ) (T : Thread) : State :=
  { s with threads := Function.update s.threads t T }

inductive Action
  | register (t : ℕ)
  | increment (t : ℕ)
  | readClock (t v : ℕ)
  | store (t : ℕ)
  | endTx (t : ℕ)
  | clearWait (t : ℕ)
  | deregister (t : ℕ)
  | qpReadClock (v : ℕ)
  | initLock
  | snapshot
  | initUnlock
  | waitLock
  | testRunCnt
  | testClk
  | retry
  | waitUnlock
  | advance

def step (B : ℕ) (s : State) : Action → Option State
  | .register t =>
    -- `ts_thread_init` zeroes the structure and adds it to the list
    let T := s.threads t
    if T.pc = .unregistered ∧ s.pos.Locked = false then
      some { s.setThread t ⟨.outside, 0, 0, false, 0, T.lastRead⟩ with live := t :: s.live }
    else none
  | .increment t =>
    let T := s.threads t
    if T.pc = .outside then
      some (s.setThread t { T with pc := .incremented, runCnt := T.runCnt + 1 })
    else none
  | .readClock t v =>
    let T := s.threads t
    if T.pc = .incremented ∧ Reading B s T.lastRead v then
      some { s.setThread t { T with pc := .gotClock v, lastRead := v } with
        lastClk := max s.lastClk v }
    else none
  | .store t =>
    let T := s.threads t
    match T.pc with
    | .gotClock v => some (s.setThread t { T with pc := .inTx, localClk := v })
    | _ => none
  | .endTx t =>
    let T := s.threads t
    if T.pc = .inTx then
      some (s.setThread t { T with pc := .outside, runCnt := T.runCnt + 1 })
    else none
  | .clearWait t =>
    let T := s.threads t
    if T.pc = .outside then
      some (s.setThread t { T with pc := .finishing, needWait := false })
    else none
  | .deregister t =>
    let T := s.threads t
    if T.pc = .finishing ∧ s.pos.Locked = false then
      some { s.setThread t { T with pc := .unregistered } with live := s.live.erase t }
    else none
  | .qpReadClock v =>
    if s.pos = .idle ∧ Reading B s s.qpLastRead v then
      some { s with pos := .gotClock v, qpLastRead := v, lastClk := max s.lastClk v }
    else none
  | .initLock =>
    match s.pos with
    | .gotClock clk => some { s with pos := .init clk s.live }
    | _ => none
  | .snapshot =>
    match s.pos with
    | .init clk (t :: todo) =>
      let T := s.threads t
      some { s.setThread t { T with
          qpRunCnt := T.runCnt, needWait := decide (T.runCnt &&& 1 = 1) } with
        pos := .init clk todo }
    | _ => none
  | .initUnlock =>
    match s.pos with
    | .init clk [] => some { s with pos := .initDone clk }
    | _ => none
  | .waitLock =>
    match s.pos with
    | .initDone clk => some { s with pos := .wait clk s.live }
    | _ => none
  | .testRunCnt =>
    match s.pos with
    | .wait clk (t :: todo) =>
      let T := s.threads t
      if T.needWait = false then some { s with pos := .wait clk todo }
      else if T.qpRunCnt ≠ T.runCnt then
        some { s.setThread t { T with needWait := false } with pos := .wait clk todo }
      else some { s with pos := .waitClk clk t todo }
    | _ => none
  | .testClk =>
    match s.pos with
    | .waitClk clk t todo =>
      let T := s.threads t
      if gteClock B T.localClk clk then
        some { s.setThread t { T with needWait := false } with pos := .wait clk todo }
      else some { s with pos := .wait clk (t :: todo) }
    | _ => none
  | .retry =>
    -- a thread waits for the lock: unlock, and start over
    match s.pos with
    | .wait clk (_ :: _) => some { s with pos := .initDone clk }
    | _ => none
  | .waitUnlock =>
    match s.pos with
    | .wait clk [] => some { s with pos := .waited clk }
    | _ => none
  | .advance =>
    match s.pos with
    | .waited clk =>
      some { s with
        pos := .idle, qp2 := s.qp1, qp1 := s.qp0, qp0 := correctQpClock B clk }
    | _ => none

/-- The states of all runs. -/
abbrev Reachable (B : ℕ) : State → Prop := Run.Reach (· = initial) (step B) Run.any

/-- The thread is inside a transaction, and the transaction has a local clock of at least
`q`, or it gets one when `ts_begin` goes on. -/
def Obtains (B : ℕ) (s : State) (q t : ℕ) : Prop :=
  match (s.threads t).pc with
  | .incremented => ∀ v, Reading B s (s.threads t).lastRead v → q ≤ v
  | .gotClock v => q ≤ v
  | .inTx => q ≤ (s.threads t).localClk
  | .unregistered | .outside | .finishing => False

/-! ### One thread -/

/-- The counter is odd. -/
def Thread.Odd (T : Thread) : Prop := T.runCnt &&& 1 = 1

instance (T : Thread) : Decidable T.Odd := inferInstanceAs (Decidable (_ = _))

/-- Between the increments of the counter. -/
def Pc.Running : Pc → Prop
  | incremented | gotClock _ | inTx => True
  | unregistered | outside | finishing => False

/-- What holds of every thread. -/
structure Thread.Ok (T : Thread) : Prop where
  odd : T.Odd ↔ T.pc.Running
  localClk : T.localClk ≤ T.lastRead
  read : ∀ v, T.pc = .gotClock v → v = T.lastRead

/-- The clock that the thread has read for its transaction is at least `q`. -/
structure Thread.Good (q : ℕ) (T : Thread) : Prop where
  read : ∀ v, T.pc = .gotClock v → q ≤ v
  stored : T.pc = .inTx → q ≤ T.localClk

/-- The detection still waits for the transaction of the snapshot. -/
def Thread.Held (T : Thread) : Prop := T.needWait = true ∧ T.qpRunCnt = T.runCnt

/-- Every reading from now on is at least `q`. -/
def State.Floor (B : ℕ) (s : State) (q : ℕ) : Prop := q ≤ s.lastClk - B

/-- What a step of a thread does to its structure: the thread starts later than the clocks
read so far, or it goes on with its transaction. -/
def Thread.Next (B : ℕ) (s : State) (T T' : Thread) : Prop :=
  (∀ q, s.Floor B q → T'.Good q) ∨
    T'.needWait = T.needWait ∧ T'.qpRunCnt = T.qpRunCnt ∧ T'.runCnt = T.runCnt ∧
      ∀ q, T.Good q → T'.Good q

variable {B q : ℕ} {s s' : State} {a : Action} {t : ℕ} {T T' : Thread}

theorem odd_succ (x : UInt32) : (x + 1) &&& 1 = 1 ↔ ¬ x &&& 1 = 1 := by
  rw [← UInt32.toNat_inj, ← UInt32.toNat_inj, UInt32.toNat_and, UInt32.toNat_and,
    UInt32.toNat_add]
  simp only [UInt32.toNat_one, Nat.and_one_is_mod]
  omega

/-- A thread that is not in the middle of a transaction. -/
theorem good_of_pc (h : ∀ v, T.pc ≠ .gotClock v) (h' : T.pc ≠ .inTx) : T.Good q :=
  ⟨fun v hv => absurd hv (h v), fun hv => absurd hv h'⟩

theorem Thread.Next.good (h : T.Next B s T') (hf : s.Floor B q) (hg : T.Good q) : T'.Good q := by
  rcases h with h | ⟨-, -, -, h⟩
  · exact h q hf
  · exact h q hg

theorem Thread.Next.held (h : T.Next B s T') (hf : s.Floor B q) (hg : T.Good q ∨ T.Held) :
    T'.Good q ∨ T'.Held := by
  rcases h with h | ⟨h1, h2, h3, h4⟩
  · exact Or.inl (h q hf)
  · rcases hg with hg | hg
    · exact Or.inl (h4 q hg)
    · refine Or.inr ?_
      rw [Thread.Held, h1, h2, h3]
      exact hg

/-! ### The detection -/

/-- What the detection knows of the threads. -/
def Pos.Ok (B : ℕ) (s : State) : Pos → Prop
  | idle => True
  | gotClock clk => s.Floor B (correctQpClock B clk)
  | init clk todo => s.Floor B (correctQpClock B clk) ∧
      ∀ t ∉ todo, (s.threads t).Good (correctQpClock B clk) ∨ (s.threads t).Held
  | initDone clk => s.Floor B (correctQpClock B clk) ∧
      ∀ t, (s.threads t).Good (correctQpClock B clk) ∨ (s.threads t).Held
  | wait clk todo => s.Floor B (correctQpClock B clk) ∧
      (∀ t, (s.threads t).Good (correctQpClock B clk) ∨ (s.threads t).Held) ∧
      ∀ t ∉ todo, (s.threads t).Good (correctQpClock B clk)
  | waitClk clk u todo => s.Floor B (correctQpClock B clk) ∧
      (∀ t, (s.threads t).Good (correctQpClock B clk) ∨ (s.threads t).Held) ∧
      ∀ t ∉ u :: todo, (s.threads t).Good (correctQpClock B clk)
  | waited clk => s.Floor B (correctQpClock B clk) ∧
      ∀ t, (s.threads t).Good (correctQpClock B clk)

structure Inv (B : ℕ) (s : State) : Prop where
  unregistered : ∀ t ∉ s.live, (s.threads t).pc = .unregistered
  threads : ∀ t, (s.threads t).Ok
  floor : s.Floor B s.qp0
  good : ∀ t, (s.threads t).Good s.qp0
  pos : s.pos.Ok B s

@[simp] theorem setThread_threads (u : ℕ) :
    (s.setThread t T).threads u = if u = t then T else s.threads u :=
  Function.update_apply ..

theorem inv_initial : Inv B initial where
  unregistered := fun _ _ => rfl
  threads := by
    intro t
    refine ⟨iff_of_false ?_ id, Nat.le_refl _, fun v hv => nomatch hv⟩
    change ¬ (0 : UInt32) &&& 1 = 1
    decide
  floor := Nat.zero_le _
  good := fun t => good_of_pc (fun v => nofun) nofun
  pos := trivial

/-- Steps of the threads keep what the detection knows. -/
theorem Pos.Ok.next {p : Pos} (h : p.Ok B s) (hclk : s.lastClk ≤ s'.lastClk)
    (hnext : ∀ u, (s.threads u).Next B s (s'.threads u)) : p.Ok B s' := by
  have hfloor : ∀ {q}, s.Floor B q → s'.Floor B q := by
    intro q hf
    unfold State.Floor at *
    omega
  cases p with
  | idle => trivial
  | gotClock clk => exact hfloor h
  | init clk todo => exact ⟨hfloor h.1, fun u hu => (hnext u).held h.1 (h.2 u hu)⟩
  | initDone clk => exact ⟨hfloor h.1, fun u => (hnext u).held h.1 (h.2 u)⟩
  | wait clk todo =>
    exact ⟨hfloor h.1, fun u => (hnext u).held h.1 (h.2.1 u),
      fun u hu => (hnext u).good h.1 (h.2.2 u hu)⟩
  | waitClk clk v todo =>
    exact ⟨hfloor h.1, fun u => (hnext u).held h.1 (h.2.1 u),
      fun u hu => (hnext u).good h.1 (h.2.2 u hu)⟩
  | waited clk => exact ⟨hfloor h.1, fun u => (hnext u).good h.1 (h.2 u)⟩

/-- A step of the thread `t`. -/
theorem Inv.next (h : Inv B s) (hother : ∀ u, u ≠ t → s'.threads u = s.threads u)
    (hlive : ∀ u, u ≠ t → u ∈ s.live → u ∈ s'.live)
    (ht : t ∉ s'.live → (s'.threads t).pc = .unregistered) (hok : (s'.threads t).Ok)
    (hnext : (s.threads t).Next B s (s'.threads t)) (hclk : s.lastClk ≤ s'.lastClk)
    (hqp0 : s'.qp0 = s.qp0) (hpos : s'.pos = s.pos) : Inv B s' := by
  have hall : ∀ u, (s.threads u).Next B s (s'.threads u) := by
    intro u
    by_cases hu : u = t
    · rw [hu]
      exact hnext
    · rw [hother u hu]
      exact Or.inr ⟨rfl, rfl, rfl, fun _ hg => hg⟩
  constructor
  · intro u hu
    by_cases hut : u = t
    · rw [hut] at hu ⊢
      exact ht hu
    · rw [hother u hut]
      exact h.unregistered u fun hm => hu (hlive u hut hm)
  · intro u
    by_cases hut : u = t
    · rw [hut]
      exact hok
    · rw [hother u hut]
      exact h.threads u
  · have hf := h.floor
    rw [hqp0]
    unfold State.Floor at *
    omega
  · intro u
    rw [hqp0]
    exact (hall u).good h.floor (h.good u)
  · rw [hpos]
    exact h.pos.next hclk hall

/-- A step of the thread `t` that leaves the list and the clock alone. -/
theorem Inv.setThread (h : Inv B s) (hpc : (s.threads t).pc ≠ .unregistered) (hok : T.Ok)
    (hnext : (s.threads t).Next B s T) : Inv B (s.setThread t T) := by
  refine h.next (t := t) ?_ (fun u _ hu => hu) ?_ ?_ ?_ (Nat.le_refl _) rfl rfl
  · intro u hu
    simp [hu]
  · intro hu
    exact absurd (h.unregistered t hu) hpc
  · simpa using hok
  · simpa using hnext

theorem inv_register (h : Inv B s) :
    Inv B { s.setThread t ⟨.outside, 0, 0, false, 0, (s.threads t).lastRead⟩ with
      live := t :: s.live } := by
  refine h.next (t := t) ?_ (fun u _ hu => List.mem_cons_of_mem _ hu) ?_ ?_ ?_ (Nat.le_refl _)
    rfl rfl
  · intro u hu
    simp [hu]
  · intro hu
    exact absurd (List.mem_cons_self ..) hu
  · simp only [setThread_threads, if_true]
    refine ⟨iff_of_false ?_ id, Nat.zero_le _, nofun⟩
    change ¬ (0 : UInt32) &&& 1 = 1
    decide
  · simp only [setThread_threads, if_true]
    exact Or.inl fun q _ => good_of_pc nofun nofun

theorem inv_increment (h : Inv B s) (hpc : (s.threads t).pc = .outside) :
    Inv B (s.setThread t { s.threads t with
      pc := .incremented, runCnt := (s.threads t).runCnt + 1 }) := by
  have hok := h.threads t
  refine h.setThread (by rw [hpc]; exact nofun) ⟨?_, hok.localClk, nofun⟩ ?_
  · have hodd := hok.odd
    rw [hpc] at hodd
    exact iff_of_true ((odd_succ _).mpr fun ho => hodd.mp ho) trivial
  · exact Or.inl fun q _ => good_of_pc nofun nofun

theorem inv_readClock (h : Inv B s) {v : ℕ} (hpc : (s.threads t).pc = .incremented)
    (hv : Reading B s (s.threads t).lastRead v) :
    Inv B { s.setThread t { s.threads t with pc := .gotClock v, lastRead := v } with
      lastClk := max s.lastClk v } := by
  have hok := h.threads t
  obtain ⟨hv1, hv2, -⟩ := hv
  refine h.next (t := t) ?_ (fun u _ hu => hu) ?_ ?_ ?_ (Nat.le_max_left ..) rfl rfl
  · intro u hu
    simp [hu]
  · intro hu
    have hun := h.unregistered t hu
    rw [hpc] at hun
    cases hun
  · simp only [setThread_threads, if_true]
    refine ⟨?_, Nat.le_trans hok.localClk hv1, fun w hw => (Pc.gotClock.inj hw).symm⟩
    have hodd := hok.odd
    rw [hpc] at hodd
    exact iff_of_true (hodd.mpr trivial) trivial
  · -- the reading is after every clock that was read before
    simp only [setThread_threads, if_true]
    refine Or.inl fun q hf => ⟨fun w hw => ?_, nofun⟩
    obtain rfl := Pc.gotClock.inj hw
    unfold State.Floor at hf
    omega

theorem inv_store (h : Inv B s) {v : ℕ} (hpc : (s.threads t).pc = .gotClock v) :
    Inv B (s.setThread t { s.threads t with pc := .inTx, localClk := v }) := by
  have hok := h.threads t
  have hv := hok.read v hpc
  refine h.setThread (by rw [hpc]; exact nofun) ⟨?_, Nat.le_of_eq hv, nofun⟩ ?_
  · have hodd := hok.odd
    rw [hpc] at hodd
    exact iff_of_true (hodd.mpr trivial) trivial
  · exact Or.inr ⟨rfl, rfl, rfl, fun q hg => ⟨nofun, fun _ => hg.read v hpc⟩⟩

theorem inv_endTx (h : Inv B s) (hpc : (s.threads t).pc = .inTx) :
    Inv B (s.setThread t { s.threads t with
      pc := .outside, runCnt := (s.threads t).runCnt + 1 }) := by
  have hok := h.threads t
  refine h.setThread (by rw [hpc]; exact nofun) ⟨?_, hok.localClk, nofun⟩ ?_
  · have hodd := hok.odd
    rw [hpc] at hodd
    exact iff_of_false (fun ho => (odd_succ _).mp ho (hodd.mpr trivial)) id
  · exact Or.inl fun q _ => good_of_pc nofun nofun

theorem inv_clearWait (h : Inv B s) (hpc : (s.threads t).pc = .outside) :
    Inv B (s.setThread t { s.threads t with pc := .finishing, needWait := false }) := by
  have hok := h.threads t
  refine h.setThread (by rw [hpc]; exact nofun) ⟨?_, hok.localClk, nofun⟩ ?_
  · have hodd := hok.odd
    rw [hpc] at hodd
    exact hodd
  · exact Or.inl fun q _ => good_of_pc nofun nofun

theorem inv_deregister (h : Inv B s) (hpc : (s.threads t).pc = .finishing) :
    Inv B { s.setThread t { s.threads t with pc := .unregistered } with
      live := s.live.erase t } := by
  have hok := h.threads t
  refine h.next (t := t) ?_ (fun u hu hm => (List.mem_erase_of_ne hu).mpr hm) ?_ ?_ ?_
    (Nat.le_refl _) rfl rfl
  · intro u hu
    simp [hu]
  · intro _
    simp
  · simp only [setThread_threads, if_true]
    have hodd := hok.odd
    rw [hpc] at hodd
    exact ⟨hodd, hok.localClk, nofun⟩
  · simp only [setThread_threads, if_true]
    exact Or.inl fun q _ => good_of_pc nofun nofun

/-! ### The steps of the QP thread -/

/-- `T'` differs from `T` in what the detection writes. -/
def Thread.SameRun (T T' : Thread) : Prop :=
  T'.pc = T.pc ∧ T'.runCnt = T.runCnt ∧ T'.localClk = T.localClk ∧ T'.lastRead = T.lastRead

theorem Thread.SameRun.good (h : T.SameRun T') (hg : T.Good q) : T'.Good q := by
  obtain ⟨h1, -, h3, -⟩ := h
  constructor
  · rw [h1]
    exact hg.read
  · rw [h1, h3]
    exact hg.stored

theorem Thread.SameRun.ok (h : T.SameRun T') (hok : T.Ok) : T'.Ok := by
  obtain ⟨h1, h2, h3, h4⟩ := h
  constructor
  · rw [Thread.Odd, h1, h2]
    exact hok.odd
  · rw [h3, h4]
    exact hok.localClk
  · rw [h1, h4]
    exact hok.read

theorem Inv.qp (h : Inv B s) (hsame : ∀ u, (s.threads u).SameRun (s'.threads u))
    (hlive : s'.live = s.live) (hclk : s.lastClk ≤ s'.lastClk) (hqp0 : s'.qp0 = s.qp0)
    (hpos : s'.pos.Ok B s') : Inv B s' where
  unregistered := by
    intro u hu
    rw [hlive] at hu
    rw [(hsame u).1]
    exact h.unregistered u hu
  threads := fun u => (hsame u).ok (h.threads u)
  floor := by
    have hf := h.floor
    rw [hqp0]
    unfold State.Floor at *
    omega
  good := by
    intro u
    rw [hqp0]
    exact (hsame u).good (h.good u)
  pos := hpos

/-- The QP thread moves on without writing to a thread. -/
theorem Inv.move (h : Inv B s) {p : Pos} (hp : p.Ok B s) : Inv B { s with pos := p } := by
  refine h.qp (fun u => ⟨rfl, rfl, rfl, rfl⟩) rfl (Nat.le_refl _) rfl ?_
  cases p <;> exact hp

/-- Threads that are not in the list are outside transactions. -/
theorem Inv.good_of_not_mem (h : Inv B s) (ht : t ∉ s.live) : (s.threads t).Good q := by
  have hpc := h.unregistered t ht
  exact good_of_pc (by rw [hpc]; exact nofun) (by rw [hpc]; exact nofun)

theorem inv_qpReadClock (h : Inv B s) (v : ℕ) :
    Inv B { s with pos := .gotClock v, qpLastRead := v, lastClk := max s.lastClk v } := by
  refine h.qp (fun u => ⟨rfl, rfl, rfl, rfl⟩) rfl (Nat.le_max_left ..) rfl ?_
  show v - B ≤ max s.lastClk v - B
  omega

/-- After its snapshot a thread is outside a transaction, or the detection waits for it. -/
theorem inv_snapshot (h : Inv B s) {clk : ℕ} {todo : List ℕ} (hp : s.pos = .init clk (t :: todo)) :
    Inv B { s.setThread t { s.threads t with
        qpRunCnt := (s.threads t).runCnt
        needWait := decide ((s.threads t).runCnt &&& 1 = 1) } with pos := .init clk todo } := by
  have hpos := h.pos
  rw [hp] at hpos
  refine h.qp ?_ rfl (Nat.le_refl _) rfl ⟨hpos.1, ?_⟩
  · intro u
    by_cases hu : u = t
    · subst hu
      simp [Thread.SameRun]
    · simp [Thread.SameRun, hu]
  · intro u hu
    by_cases hut : u = t
    · subst hut
      simp only [setThread_threads, if_true]
      by_cases hodd : (s.threads u).Odd
      · exact Or.inr ⟨decide_eq_true hodd, rfl⟩
      · refine Or.inl (good_of_pc ?_ ?_)
        · intro v hv
          refine hodd ((h.threads u).odd.mpr ?_)
          rw [hv]
          trivial
        · intro hv
          refine hodd ((h.threads u).odd.mpr ?_)
          rw [hv]
          trivial
    · simpa [hut] using hpos.2 u (by simp [hut, hu])

/-- The loop is done with a thread whose transaction starts late enough. -/
theorem inv_pass (h : Inv B s) {clk : ℕ} {todo : List ℕ}
    (hpos : (Pos.waitClk clk t todo).Ok B s)
    (hg : (s.threads t).Good (correctQpClock B clk)) :
    Inv B { s.setThread t { s.threads t with needWait := false } with pos := .wait clk todo } := by
  have hsame : ∀ u, (s.threads u).SameRun
      ((s.setThread t { s.threads t with needWait := false }).threads u) := by
    intro u
    by_cases hu : u = t
    · subst hu
      simp [Thread.SameRun]
    · simp [Thread.SameRun, hu]
  refine h.qp hsame rfl (Nat.le_refl _) rfl ⟨hpos.1, ?_, ?_⟩
  · intro u
    by_cases hu : u = t
    · rw [hu]
      exact Or.inl ((hsame t).good hg)
    · simpa [hu] using hpos.2.1 u
  · intro u hu
    by_cases hut : u = t
    · rw [hut]
      exact (hsame t).good hg
    · exact (hsame u).good (hpos.2.2 u (by simp [hut, hu]))

/-- A thread whose local clock has reached the clock read: the local clock may be that of an
earlier transaction, and the pending one starts after that. -/
theorem good_of_gteClock (hok : T.Ok) {clk : ℕ} (h : gteClock B T.localClk clk) :
    T.Good (correctQpClock B clk) := by
  rw [gteClock_iff] at h
  unfold correctQpClock
  constructor
  · intro v hv
    have h1 := hok.read v hv
    have h2 := hok.localClk
    omega
  · intro _
    omega

theorem inv_testRunCnt (h : Inv B s) (hs : step B s .testRunCnt = some s') : Inv B s' := by
  simp only [step] at hs
  split at hs
  · rename_i clk t todo hp
    have hpos := h.pos
    rw [hp] at hpos
    split at hs
    · rename_i hw
      cases hs
      refine h.move ⟨hpos.1, hpos.2.1, fun u hu => ?_⟩
      by_cases hut : u = t
      · subst hut
        -- a thread without `need_wait` was passed before
        rcases hpos.2.1 u with hg | hg
        · exact hg
        · rw [Thread.Held, hw] at hg
          cases hg.1
      · exact hpos.2.2 u (by simp [hut, hu])
    · split at hs
      · rename_i hne
        cases hs
        refine inv_pass h (t := t) hpos ?_
        rcases hpos.2.1 t with hg | hg
        · exact hg
        · exact absurd hg.2 hne
      · cases hs
        exact h.move hpos
  · cases hs

theorem inv_testClk (h : Inv B s) (hs : step B s .testClk = some s') : Inv B s' := by
  simp only [step] at hs
  split at hs
  · rename_i clk t todo hp
    have hpos := h.pos
    rw [hp] at hpos
    split at hs
    · rename_i hge
      cases hs
      exact inv_pass h hpos (good_of_gteClock (h.threads t) hge)
    · cases hs
      exact h.move hpos
  · cases hs

/-- `advance_qp_clock`: the loop has passed every thread. -/
theorem inv_advance (h : Inv B s) {clk : ℕ} (hp : s.pos = .waited clk) :
    Inv B { s with pos := .idle, qp2 := s.qp1, qp1 := s.qp0, qp0 := correctQpClock B clk } := by
  have hpos := h.pos
  rw [hp] at hpos
  exact ⟨h.unregistered, h.threads, hpos.1, hpos.2, trivial⟩

theorem inv_step (h : Inv B s) (hs : step B s a = some s') : Inv B s' := by
  cases a with
  | register t =>
    simp only [step, Option.ite_none_right_eq_some, Option.some_inj] at hs
    obtain ⟨-, rfl⟩ := hs
    exact inv_register h
  | increment t =>
    simp only [step, Option.ite_none_right_eq_some, Option.some_inj] at hs
    obtain ⟨hpc, rfl⟩ := hs
    exact inv_increment h hpc
  | readClock t v =>
    simp only [step, Option.ite_none_right_eq_some, Option.some_inj] at hs
    obtain ⟨⟨hpc, hv⟩, rfl⟩ := hs
    exact inv_readClock h hpc hv
  | store t =>
    simp only [step] at hs
    split at hs
    · rename_i v hpc
      cases hs
      exact inv_store h hpc
    · cases hs
  | endTx t =>
    simp only [step, Option.ite_none_right_eq_some, Option.some_inj] at hs
    obtain ⟨hpc, rfl⟩ := hs
    exact inv_endTx h hpc
  | clearWait t =>
    simp only [step, Option.ite_none_right_eq_some, Option.some_inj] at hs
    obtain ⟨hpc, rfl⟩ := hs
    exact inv_clearWait h hpc
  | deregister t =>
    simp only [step, Option.ite_none_right_eq_some, Option.some_inj] at hs
    obtain ⟨⟨hpc, -⟩, rfl⟩ := hs
    exact inv_deregister h hpc
  | qpReadClock v =>
    simp only [step, Option.ite_none_right_eq_some, Option.some_inj] at hs
    obtain ⟨-, rfl⟩ := hs
    exact inv_qpReadClock h v
  | initLock =>
    simp only [step] at hs
    split at hs
    · rename_i clk hp
      cases hs
      have hpos := h.pos
      rw [hp] at hpos
      exact h.move ⟨hpos, fun t ht => Or.inl (h.good_of_not_mem ht)⟩
    · cases hs
  | snapshot =>
    simp only [step] at hs
    split at hs
    · rename_i hp
      cases hs
      exact inv_snapshot h hp
    · cases hs
  | initUnlock =>
    simp only [step] at hs
    split at hs
    · rename_i hp
      cases hs
      have hpos := h.pos
      rw [hp] at hpos
      exact h.move ⟨hpos.1, fun t => hpos.2 t nofun⟩
    · cases hs
  | waitLock =>
    simp only [step] at hs
    split at hs
    · rename_i hp
      cases hs
      have hpos := h.pos
      rw [hp] at hpos
      exact h.move ⟨hpos.1, hpos.2, fun t ht => h.good_of_not_mem ht⟩
    · cases hs
  | testRunCnt => exact inv_testRunCnt h hs
  | testClk => exact inv_testClk h hs
  | retry =>
    simp only [step] at hs
    split at hs
    · rename_i hp
      cases hs
      have hpos := h.pos
      rw [hp] at hpos
      exact h.move ⟨hpos.1, hpos.2.1⟩
    · cases hs
  | waitUnlock =>
    simp only [step] at hs
    split at hs
    · rename_i hp
      cases hs
      have hpos := h.pos
      rw [hp] at hpos
      exact h.move ⟨hpos.1, fun t => hpos.2.2 t nofun⟩
    · cases hs
  | advance =>
    simp only [step] at hs
    split at hs
    · rename_i hp
      cases hs
      exact inv_advance h hp
    · cases hs

theorem Reachable.inv (h : Reachable B s) : Inv B s := by
  refine h.invariant ?_ ?_
  · rintro _ rfl
    exact inv_initial
  · intro s a s' hinv _ hs
    exact inv_step hinv hs

theorem Inv.obtains (h : Inv B s) (hodd : (s.threads t).Odd) : Obtains B s s.qp0 t := by
  have hrun := (h.threads t).odd.mp hodd
  have hgood := h.good t
  have hfloor := h.floor
  unfold Obtains
  cases hpc : (s.threads t).pc with
  | incremented =>
    rintro v ⟨-, hv, -⟩
    unfold State.Floor at hfloor
    omega
  | gotClock v => exact hgood.read v hpc
  | inTx => exact hgood.stored hpc
  | unregistered =>
    rw [hpc] at hrun
    exact hrun
  | outside =>
    rw [hpc] at hrun
    exact hrun
  | finishing =>
    rw [hpc] at hrun
    exact hrun

/-- In every state, also when `qp_detect` returns with a new `__qp0` and for threads that
have registered since its start: a thread inside a transaction has a local clock of at
least `__qp0`, or its `ts_begin` is going to store one. -/
theorem quiescence_sound (h : Reachable B s) (t : ℕ) (hodd : (s.threads t).runCnt &&& 1 = 1) :
    Obtains B s s.qp0 t :=
  h.inv.obtains hodd

/-- With a boundary of 10, the thread 0 is in a transaction that began at 25 when the
detection reads 30; the thread 1 registers during the detection and has not read its clock
yet when it ends with the period 20. -/
theorem quiescence_late_register : ∃ s, Reachable 10 s ∧ s.qp0 = 20 ∧
    Obtains 10 s 20 0 ∧ Obtains 10 s 20 1 := by
  have hd : (Run.exec (step 10) Run.any initial
      [.register 0, .increment 0, .readClock 0 25, .store 0, .qpReadClock 30, .initLock, .snapshot,
        .initUnlock, .register 1, .increment 1, .waitLock, .testRunCnt, .testRunCnt, .testClk,
        .waitUnlock, .advance]).map (fun s => decide (s.qp0 = 20 ∧
        (s.threads 0).runCnt &&& 1 = 1 ∧ (s.threads 1).runCnt &&& 1 = 1)) = some true := by
    decide
  obtain ⟨s, hr, hq, h0, h1⟩ : ∃ s, Reachable 10 s ∧ _ :=
    Run.Reach.exists_of_exec (.init rfl) hd
  refine ⟨s, hr, hq, ?_, ?_⟩
  · rw [← hq]
    exact quiescence_sound hr 0 h0
  · rw [← hq]
    exact quiescence_sound hr 1 h1

end TimeStone.QpDetect
