/-
Reclaiming the logs (`tvlog_reclaim_x`, `ckptlog_reclaim_x`, `ckptlog_cleanup`,
`oplog_reclaim`).

`tvlogReclaimX` first drops the write sets below `prev_head`, turning freed objects into
tombstones on the way, and then checkpoints the following ones: a copy that is the
newest below the checkpoint clock goes to the checkpoint log and is detached.  In the
best-effort mode both loops stop at the first write set that would need more.
`ckptlogReclaimX` first drops the entries below `prev_head`, and then writes back those
that are old enough and still the current master.
-/
import TimeStone.System.State

namespace TimeStone.System

variable {α β : Type*}

namespace State

variable (s : State α β)

/-- `_ckptlog_enq` into the checkpoint log of `t`. -/
def ckptlogEnq (t : ℕ) (x : CkptEntry α) : State α β :=
  { s with
    entries := Function.update s.entries s.numEntries x
    numEntries := s.numEntries + 1
    tombstone := Function.update s.tombstone s.numEntries x.isTomb
    ckNew := Function.update s.ckNew t (s.ckNew t ++ [s.numEntries])
    curAct := Function.update s.curAct x.obj (some s.numEntries)
    enqClk := Function.update s.enqClk s.numEntries s.lastClk }

/-- A freed object in the first loop of `tvlog_reclaim_x`: append a tombstone when the
original master is the current one, otherwise mark the current master. -/
def markTombstone (t wrt k : ℕ) : State α β :=
  let o := (s.copies k).obj
  if s.status k = .tombstoneMarked then s
  else
    match s.curAct o with
    -- the current master is the original one
    | none =>
      { s.ckptlogEnq t ⟨o, wrt, (s.clks t).qp0, true, none⟩ with
        tombstoneClk := Function.update s.tombstoneClk o (s.clks t).qp0
        status := Function.update s.status k .tombstoneMarked }
    | some e =>
      { s with
        tombstone := Function.update s.tombstone e true
        status := Function.update s.status k .tombstoneMarked }

/-- The copies of the oldest write set in the first loop; `true` when the best-effort mode
stops at a copy that some transaction may still need. -/
def reclaimSet (B : ℕ) (mode : TvReq) (t wrt : ℕ) : List ℕ → State α β → State α β × Bool
  | [], s => (s, false)
  | k :: ks, s =>
    match (s.copies k).kind with
    | .free => reclaimSet B mode t wrt ks (s.markTombstone t wrt k)
    | .copy | .const =>
      if mode = .bestEffort ∧ gteClock B (s.wrtClkPrev k) (s.clks t).qp0 then (s, true)
      else reclaimSet B mode t wrt ks s

/-- The head passes the oldest write set. -/
def dropSet (t : ℕ) (w : WrtSet) (rest : List WrtSet) : State α β :=
  { s with
    tvOld := Function.update s.tvOld t rest
    reclaimed := fun k => s.reclaimed k || k ∈ w.copies }

/-- The first loop of `tvlog_reclaim_x`, over `[head, prev_head)`. -/
def reclaimLoop (B : ℕ) (mode : TvReq) (t : ℕ) : List WrtSet → State α β → State α β
  | [], s => s
  | w :: rest, s =>
    let r := reclaimSet B mode t w.wrtClk w.copies s
    -- `stop_checkpoint_step1`: what was marked stays marked
    if r.2 then r.1 else reclaimLoop B mode t rest (r.1.dropSet t w rest)

/-- `is_at_borderline`. -/
def IsAtBorderline (B k ckptSClk lastCkptClk : ℕ) : Prop :=
  if s.wrtClkPrev k = maxVersion then ltClock B (s.copies k).wrtClk ckptSClk
  else gteClock B (s.wrtClkPrev k) ckptSClk ∧ ltClock B (s.copies k).wrtClk ckptSClk ∧
    gteClock B (s.copies k).wrtClk lastCkptClk

instance (B k ckptSClk lastCkptClk : ℕ) :
    Decidable (s.IsAtBorderline B k ckptSClk lastCkptClk) := by
  unfold IsAtBorderline
  infer_instance

/-- `try_detach_obj`. -/
def tryDetachObj (k : ℕ) : State α β :=
  { s with
    status := Function.update s.status k .detached
    pCopy := if s.pCopy (s.copies k).obj = some k
      then Function.update s.pCopy (s.copies k).obj none else s.pCopy }

/-- `ckptlog_enq` and `try_detach_obj` of the copy `k`. -/
def checkpoint (t wrt k : ℕ) : State α β :=
  (s.ckptlogEnq t ⟨(s.copies k).obj, wrt, (s.clks t).qp0, false, (s.copies k).content⟩).tryDetachObj k

/-- The copy `k` has to be checkpointed now. -/
def NeedsCkpt (B t k : ℕ) : Prop :=
  (s.copies k).kind ≠ .free ∧ s.status k ≠ .detached ∧
    s.IsAtBorderline B k (s.clks t).qp0 (s.clks t).lastCkpt

instance (B t k : ℕ) : Decidable (s.NeedsCkpt B t k) := inferInstanceAs (Decidable (_ ∧ _ ∧ _))

/-- The copies of a write set in the second loop; `true` when the best-effort mode stops
at a copy that has to be checkpointed. -/
def ckptSet (B : ℕ) (mode : TvReq) (t wrt : ℕ) : List ℕ → State α β → State α β × Bool
  | [], s => (s, false)
  | k :: ks, s =>
    if s.NeedsCkpt B t k then
      -- a best-effort reclamation stops in front of the write set
      if mode = .ckpt then ckptSet B mode t wrt ks (s.checkpoint t wrt k) else (s, true)
    else ckptSet B mode t wrt ks s

/-- `prev_head` passes a write set. -/
def passSet (t : ℕ) (w : WrtSet) (rest : List WrtSet) : State α β :=
  { s with
    tvOld := Function.update s.tvOld t (s.tvOld t ++ [w])
    tvNew := Function.update s.tvNew t rest }

/-- The second loop of `tvlog_reclaim_x`. -/
def ckptLoop (B : ℕ) (mode : TvReq) (t : ℕ) : List WrtSet → State α β → State α β
  | [], s => s
  | w :: rest, s =>
    if gteClock B w.wrtClk (s.clks t).qp0 then s
    else
      let r := ckptSet B mode t w.wrtClk w.copies s
      if r.2 then r.1 else ckptLoop B mode t rest (r.1.passSet t w rest)

/-- The second loop starts at the new head. -/
def rewind (t : ℕ) : State α β :=
  { s with
    tvOld := Function.update s.tvOld t []
    tvNew := Function.update s.tvNew t (s.tvOld t ++ s.tvNew t) }

/-- The end of `tvlog_reclaim_x`. -/
def tvServed (t : ℕ) : State α β :=
  { s with
    req := Function.update s.req t { s.req t with tvlog := .none }
    tvClk := Function.update s.tvClk t s.lastClk
    tvRound := Function.update s.tvRound t s.round }

/-- `tvlog_reclaim_x`. -/
def tvlogReclaimX (B : ℕ) (mode : TvReq) (t : ℕ) : State α β :=
  let s₁ := (reclaimLoop B mode t (s.tvOld t) s).rewind t
  (ckptLoop B mode t (s₁.tvNew t) s₁).tvServed t

/-- `tvlog_reclaim`. -/
def tvlogReclaim (B t : ℕ) : State α β :=
  match (s.req t).tvlog with
  | .none => s
  | mode => s.tvlogReclaimX B mode t

/-- The head of the checkpoint log passes the entry `e`. -/
def dropEntry (t e : ℕ) (rest : List ℕ) : State α β :=
  { s with
    ckOld := Function.update s.ckOld t rest
    dropped := Function.update s.dropped e true
    ckFree := if s.tombstone e
      then Function.update s.ckFree t (s.ckFree t ++ [(s.entries e).obj]) else s.ckFree }

/-- The first loop of `ckptlog_reclaim_x`, over `[head, prev_head)`. -/
def dropLoop (t : ℕ) : List ℕ → State α β → State α β
  | [], s => s
  | e :: rest, s => dropLoop t rest (s.dropEntry t e rest)

/-- `__min_ckpt_reclaimed` after the first loop. -/
def noteMinCkpt (t : ℕ) : State α β :=
  match s.ckNew t with
  | [] => s
  | e :: _ =>
    { s with
      clks := Function.update s.clks t
        { s.clks t with minCkptReclaimed := (s.entries e).ckptSClk } }

/-- Write back the entry `e` to the original master. -/
def writeback (e : ℕ) : State α β :=
  { s with
    master := Function.update s.master (s.entries e).obj (s.entries e).content
    curAct := Function.update s.curAct (s.entries e).obj none
    masterWrt := Function.update s.masterWrt (s.entries e).obj (s.entries e).wrtClk }

/-- `prev_head` of the checkpoint log passes the entry `e`. -/
def passEntry (t e : ℕ) (rest : List ℕ) : State α β :=
  { s with
    ckOld := Function.update s.ckOld t (s.ckOld t ++ [e])
    ckNew := Function.update s.ckNew t rest }

/-- The second loop of `ckptlog_reclaim_x`.  The watermark allows `budget` more
writebacks, or any number of them. -/
def writebackLoop (B t : ℕ) : List ℕ → Option ℕ → State α β → State α β
  | [], _, s => s
  | e :: rest, budget, s =>
    if gtClock B (s.entries e).ckptSClk (s.clks t).qp2 then s
    -- the latest checkpoint of the object, which was not freed
    else if s.curAct (s.entries e).obj = some e ∧ s.tombstone e = false then
      -- the log is below the watermark: this writeback is put off
      if budget = some 0 then s
      else writebackLoop B t rest (budget.map (· - 1)) ((s.writeback e).passEntry t e rest)
    else writebackLoop B t rest budget (s.passEntry t e rest)

/-- The end of `ckptlog_reclaim_x`. -/
def ckServed (t : ℕ) : State α β :=
  { s with
    req := Function.update s.req t { s.req t with ckptlog := .none }
    ckClk := Function.update s.ckClk t s.lastClk
    ckRound := Function.update s.ckRound t s.round }

/-- `ckptlog_reclaim_x`. -/
def ckptlogReclaimX (B t : ℕ) (budget : Option ℕ) : State α β :=
  let s₁ := (dropLoop t (s.ckOld t) s).noteMinCkpt t
  (writebackLoop B t (s₁.ckNew t) budget s₁).ckServed t

/-- `ckptlog_reclaim`; the watermark of `RECLAIM_CKPTLOG_WRITEBACK` allows `wb`
writebacks. -/
def ckptlogReclaim (B t wb : ℕ) : State α β :=
  match (s.req t).ckptlog with
  | .none => s
  | .bestEffort => s.ckptlogReclaimX B t (some 0)
  | .writeback => s.ckptlogReclaimX B t (some wb)
  | .writebackAll => s.ckptlogReclaimX B t none

/-- The freed objects of `t` that `ckptlog_cleanup` deallocates. -/
def deallocs (B t untilClk : ℕ) : List ℕ :=
  (s.ckFree t).filter fun o => ltClock B (s.tombstoneClk o) untilClk

/-- `ckptlog_cleanup`. -/
def ckptlogCleanup (B t untilClk : ℕ) : State α β :=
  { s with
    freed := s.freed ++ s.deallocs B t untilClk
    master := fun o => if o ∈ s.deallocs B t untilClk then none else s.master o
    ckFree := Function.update s.ckFree t
      ((s.ckFree t).filter fun o => ¬ ltClock B (s.tombstoneClk o) untilClk) }

/-- `oplog_reclaim` with `RECLAIM_OPLOG_NORMAL`. -/
def oplogReclaim (B t : ℕ) : State α β :=
  { s with
    oplog := Function.update s.oplog t
      ((s.oplog t).dropWhile fun e => ltClock B e.wrtClk (s.clks t).lastCkpt) }

/-- `tvlog_used` and `ckptlog_used` are zero. -/
def LogsEmpty (t : ℕ) : Prop :=
  (s.tvOld t).isEmpty ∧ (s.tvNew t).isEmpty ∧ (s.ckOld t).isEmpty ∧ (s.ckNew t).isEmpty

instance (t : ℕ) : Decidable (s.LogsEmpty t) := inferInstanceAs (Decidable (_ ∧ _ ∧ _ ∧ _))

/-- `tvtlog_destroy`, `ckptlog_destroy` and `oplog_destroy`. -/
def destroyLogs (B t : ℕ) : State α β :=
  { s.ckptlogCleanup B t maxVersion with
    oplog := Function.update s.oplog t []
    destroyed := Function.update s.destroyed t true }

end State

end TimeStone.System
