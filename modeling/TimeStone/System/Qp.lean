/-
The quiescence thread (`qp.c`), and the steps of the whole system.

A round of the QP thread detects a quiescent period, sends the requests to the live
threads (`trigger`), reaps the zombies, helps the live threads, waits until no request
is pending (`barrier`) and publishes the checkpoint.

A call of the API is a sequence of actions of its thread, between which other threads
may act.  With `try_reclaim_logs` for `tvlogReclaim`, `ckptlogReclaim`, as far as they
are requested,
* `ts_begin` is `try_reclaim_logs`, `begin`;
* `ts_end` is `endTx`, `try_reclaim_logs`, and `ts_abort` is `abort`,
  `try_reclaim_logs`, `oplogReclaim`;
* `ts_thread_finish` is `try_reclaim_logs`, `finishStart`, `finishOplog`, `deregister`,
  `zombinize`.
-/
import TimeStone.System.Txn

namespace TimeStone.System

variable {α β : Type*}

/-- The actions of the system.  `v` is a clock reading, `wb` the number of writebacks
that the watermark allows a reclamation. -/
inductive Op (α β : Type*)
  | threadInit (t : ℕ)
  | begin (t v : ℕ)
  | deref (t o : ℕ)
  | lock (t o : ℕ) (kind : Kind)
  | write (t k : ℕ) (a : α)
  | free (t o : ℕ)
  | endTx (t v : ℕ) (info : β)
  | abort (t : ℕ)
  | tvlogReclaim (t : ℕ)
  | ckptlogReclaim (t wb : ℕ)
  | oplogReclaim (t : ℕ)
  | finishStart (t : ℕ)
  | finishOplog (t : ℕ)
  | deregister (t : ℕ)
  | zombinize (t : ℕ)
  | threadFree (t : ℕ)
  | request (r : Reclaim)
  | detect (v : ℕ)
  | cleanup (t : ℕ)
  | detected
  | skip
  | startTrigger
  | trigger (t : ℕ)
  | endTrigger
  | reapLock
  | reap (t : ℕ)
  | reapRetry
  | endReap
  | startBarrier
  | publish

namespace State

variable (s : State α β)

/-- `deregister_thread` in `ts_thread_finish`. -/
def deregister (t : ℕ) : State α β :=
  { s with
    needWait := Function.update s.needWait t false
    life := Function.update s.life t .limbo }

/-- The end of `ts_thread_finish`: a thread with logs left becomes a zombie. -/
def zombinize (B t : ℕ) : State α β :=
  if s.LogsEmpty t then
    { s.destroyLogs B t with life := Function.update s.life t .gone }
  else { s with life := Function.update s.life t .zombie }

/-- `ts_thread_free`. -/
def threadFree (B t : ℕ) : State α β :=
  let s₁ := { s with dead := Function.update s.dead t true }
  if s.LogsEmpty t then s₁.destroyLogs B t else s₁

/-- The stronger of two requests, as `_request_reclaim` keeps it. -/
def raise (r : Reclaim) : State α β :=
  { s with
    qpReq := ⟨match s.qpReq.tvlog, r.tvlog with
        | .ckpt, _ | _, .ckpt => .ckpt
        | .bestEffort, _ | _, .bestEffort => .bestEffort
        | .none, .none => .none,
      match s.qpReq.ckptlog, r.ckptlog with
        | .writebackAll, _ | _, .writebackAll => .writebackAll
        | .writeback, _ | _, .writeback => .writeback
        | .bestEffort, _ | _, .bestEffort => .bestEffort
        | .none, .none => .none⟩ }

/-- `qp_init`. -/
def qpInit (v : ℕ) : State α β :=
  { s with
    phase := .waiting v
    qpRunCnt := fun t => if s.InLive t then s.runCnt t else s.qpRunCnt t
    needWait := fun t => if s.InLive t then decide (s.InTx t) else s.needWait t
    lastClk := max s.lastClk v }

/-- `qp_wait` is over for every thread. -/
def Quiescent (B clk : ℕ) : Prop :=
  ∀ t ∈ s.tids, s.InLive t → s.needWait t = true →
    s.qpRunCnt t ≠ s.runCnt t ∨ gteClock B (s.localClk t) clk

instance (B clk : ℕ) : Decidable (s.Quiescent B clk) :=
  inferInstanceAs (Decidable (∀ t ∈ s.tids, _))

/-- `advance_qp_clock`. -/
def advanceQpClock (B clk : ℕ) : State α β :=
  { s with
    phase := .detected
    needFree := false
    round := s.round + 1
    qpClks := { s.qpClks with
      qp2 := s.qpClks.qp1, qp1 := s.qpClks.qp0, qp0 := correctQpClock B clk } }

/-- `qp_trigger_reclaim` for one thread. -/
def sendRequest (t : ℕ) (r : Reclaim) : State α β :=
  { s with
    clks := Function.update s.clks t s.qpClks
    req := Function.update s.req t r }

/-- The clocks are propagated to a zombie. -/
def syncClks (t : ℕ) : State α β := { s with clks := Function.update s.clks t s.qpClks }

/-- A reclamation is forced on a zombie. -/
def forceReq (t : ℕ) (r : Reclaim) : State α β := { s with req := Function.update s.req t r }

/-- The reclamations that `qp_reap_zombie_threads` enforces. -/
def reapLogs (B t : ℕ) : State α β :=
  let s₁ := s.syncClks t
  -- only a log that is in use is reclaimed
  let s₂ := if (s₁.tvOld t).isEmpty ∧ (s₁.tvNew t).isEmpty then s₁
    else (s₁.forceReq t { s₁.req t with tvlog := .ckpt }).tvlogReclaim B t
  if (s₂.ckOld t).isEmpty ∧ (s₂.ckNew t).isEmpty then s₂
  else (s₂.forceReq t { s₂.req t with ckptlog := .writebackAll }).ckptlogReclaim B t 0

/-- `qp_reap_zombie_threads` for one thread. -/
def reapThread (B t : ℕ) : State α β :=
  let s₁ := s.reapLogs B t
  if s₁.LogsEmpty t then
    let s₂ := s₁.destroyLogs B t
    -- a thread that is not a dead zombie stays in the list, without its logs
    if s₂.dead t then { s₂ with life := Function.update s₂.life t .gone } else s₂
  else s₁

/-- The smallest `__min_ckpt_reclaimed` of the QP thread and the live threads. -/
def minCkptReclaimed : ℕ :=
  s.tids.foldl (fun m t => if s.InLive t then min m (s.clks t).minCkptReclaimed else m)
    s.qpClks.minCkptReclaimed

/-- No live thread has a request pending. -/
def AllServed : Prop := ∀ t ∈ s.tids, s.InLive t → s.req t = .none

instance : Decidable s.AllServed := inferInstanceAs (Decidable (∀ t ∈ s.tids, _))

/-- The end of a round: `last_ckpt_clk` is made durable and public when the round made a
checkpoint. -/
def publish (r : Reclaim) : State α β :=
  { s with
    phase := .idle
    needFree := decide (r.ckptlog ≠ .none)
    nvmLastCkpt := if r.tvlog = .ckpt then s.qpClks.qp0 else s.nvmLastCkpt
    qpClks := if r.tvlog = .ckpt then { s.qpClks with lastCkpt := s.qpClks.qp0 } else s.qpClks }

/-- The QP thread holds the lock of the live list. -/
def LiveLocked : Prop :=
  match s.phase with
  | .trigger _ _ => True
  | _ => False

/-- The QP thread holds the lock of the zombie list. -/
def ZombieLocked : Prop :=
  match s.phase with
  | .reap _ _ => True
  | _ => False

/-- The QP thread helps the live threads. -/
def Helping : Prop :=
  match s.phase with
  | .help _ => True
  | _ => False

instance : Decidable s.LiveLocked := by
  unfold LiveLocked
  induction s.phase using Phase.casesOn <;> infer_instance

instance : Decidable s.ZombieLocked := by
  unfold ZombieLocked
  induction s.phase using Phase.casesOn <;> infer_instance

instance : Decidable s.Helping := by
  unfold Helping
  induction s.phase using Phase.casesOn <;> infer_instance

/-- The logs of `t` may be reclaimed: by the thread between its transactions, or by the
QP thread. -/
def MayReclaim (t : ℕ) : Prop :=
  s.life t = .live ∧ ¬ s.InTx t ∨ s.Helping ∧ s.InLive t

instance (t : ℕ) : Decidable (s.MayReclaim t) := inferInstanceAs (Decidable (_ ∨ _))

end State

/-- One step of the system.  That a reading of `qp_detect` is more than the boundary after the
last one is an assumption on the clocks: the function does not test it. -/
def step (B : ℕ) (s : State α β) : Op α β → Option (State α β)
  | .threadInit t =>
    if s.life t = .fresh ∧ ¬ s.LiveLocked then some (s.threadInit t) else none
  | .begin t v =>
    if s.life t = .live ∧ ¬ s.InTx t ∧ s.Reading B v then some (s.start t v) else none
  | .deref t o => if s.InTx t then some (s.record t o (s.deref B t o)) else none
  | .lock t o kind =>
    if s.InTx t ∧ kind ≠ .free ∧ s.MayLock B t o then some (s.lock t o kind) else none
  | .write t k a =>
    if s.InTx t ∧ k ∈ s.ws t ∧ (s.copies k).kind = .copy then some (s.write k a) else none
  | .free t o =>
    if s.InTx t ∧ ∃ k ∈ s.ws t, (s.copies k).obj = o then some (s.free t o) else none
  | .endTx t v info =>
    if s.InTx t then
      -- a transaction without a write set reads no clock
      if s.ws t = [] then some (s.stop t)
      else if s.Reading B v ∧ gtClock B v (s.localClk t + B) then
        some ((s.tvlogCommit t v info).stop t)
      else none
    else none
  | .abort t => if s.InTx t then some ((s.unlockAbort t).stop t) else none
  | .tvlogReclaim t => if s.MayReclaim t then some (s.tvlogReclaim B t) else none
  | .ckptlogReclaim t wb => if s.MayReclaim t then some (s.ckptlogReclaim B t wb) else none
  | .oplogReclaim t => if s.life t = .live then some (s.oplogReclaim B t) else none
  | .finishStart t =>
    if s.life t = .live ∧ ¬ s.InTx t ∧ s.req t = .none then
      some { s with life := Function.update s.life t .finishing }
    else none
  | .finishOplog t =>
    if s.life t = .finishing then
      some { s.oplogReclaim B t with life := Function.update s.life t .flushed }
    else none
  | .deregister t =>
    if s.life t = .flushed ∧ ¬ s.LiveLocked then some (s.deregister t) else none
  | .zombinize t =>
    if s.life t = .limbo ∧ ¬ s.ZombieLocked then some (s.zombinize B t) else none
  | .threadFree t =>
    if s.life t = .zombie ∨ s.life t = .gone then some (s.threadFree B t) else none
  | .request r => some (s.raise r)
  | .detect v =>
    if s.phase = .idle ∧ s.Reading B v ∧ ltClock B s.qpClks.qp0 (correctQpClock B v) then
      some (s.qpInit v)
    else none
  | .cleanup t =>
    match s.phase with
    | .waiting _ =>
      if s.needFree ∧ s.InLive t then
        some (s.ckptlogCleanup B t (correctQpClock B s.qpClks.minCkptReclaimed))
      else none
    | _ => none
  | .detected =>
    match s.phase with
    | .waiting clk => if s.Quiescent B clk then some (s.advanceQpClock B clk) else none
    | _ => none
  | .skip =>
    if s.phase = .detected ∧ s.qpReq = .none then some { s with phase := .idle } else none
  | .startTrigger =>
    if s.phase = .detected ∧ s.qpReq ≠ .none then
      some { s with phase := .trigger s.qpReq [], qpReq := .none }
    else none
  | .trigger t =>
    match s.phase with
    | .trigger r done =>
      if s.InLive t ∧ t ∉ done then
        some { s.sendRequest t r with phase := .trigger r (t :: done) }
      else none
    | _ => none
  | .endTrigger =>
    match s.phase with
    | .trigger r done =>
      if ∀ t ∈ s.tids, s.InLive t → t ∈ done then some { s with phase := .reapStart r } else none
    | _ => none
  | .reapLock =>
    match s.phase with
    | .reapStart r => some { s with phase := .reap r [] }
    | _ => none
  | .reap t =>
    match s.phase with
    | .reap r done =>
      if s.life t = .zombie ∧ t ∉ done then
        some { s.reapThread B t with phase := .reap r (t :: done) }
      else none
    | _ => none
  | .reapRetry =>
    match s.phase with
    | .reap r _ => some { s with phase := .reapStart r }
    | _ => none
  | .endReap =>
    match s.phase with
    | .reap r done =>
      if ∀ t ∈ s.tids, s.life t = .zombie → t ∈ done then some { s with phase := .help r } else none
    | _ => none
  | .startBarrier =>
    match s.phase with
    | .help r =>
      if s.AllServed then
        some { s with
          phase := .barrier r
          qpClks := { s.qpClks with minCkptReclaimed := s.minCkptReclaimed } }
      else none
    | _ => none
  | .publish =>
    match s.phase with
    | .barrier r => some (s.publish r)
    | _ => none

/-- The states of runs from the contents `org` that keep to the condition `ok`. -/
abbrev Reachable (B : ℕ) (org : ℕ → α) (ok : State α β → Op α β → Prop) :
    State α β → Prop :=
  Run.Reach (· = initial org) (step B) ok

/-- One round in which the QP thread requests the reclamation `r` from the threads 0 and 1
and helps both of them. -/
def roundOfTwo (v : ℕ) (r : Reclaim) : List (Op α β) :=
  [.request r, .detect v, .detected, .startTrigger, .trigger 0, .trigger 1, .endTrigger,
    .reapLock, .endReap, .tvlogReclaim 0, .ckptlogReclaim 0 0, .tvlogReclaim 1,
    .ckptlogReclaim 1 0, .startBarrier, .publish]

/-- One round in which the QP thread requests `r` from the live thread 0 and reaps the
zombie 1. -/
def roundOfZombie (v : ℕ) (r : Reclaim) : List (Op α β) :=
  [.request r, .detect v, .detected, .startTrigger, .trigger 0, .endTrigger, .reapLock, .reap 1,
    .endReap, .tvlogReclaim 0, .ckptlogReclaim 0 0, .startBarrier, .publish]

end TimeStone.System
