/-
The checkpoint log (`ckptlog.c`).

Every thread has a checkpoint log, an `Nvlog` whose entries are checkpointed
copies of objects.  `np_cur_act` of an object points at its newest checkpointed
copy, or at the original master (`none` here).  `ckptlogReclaimX` first drops
the entries up to the boundary `prevHeadCnt` that the writeback of the previous
call left behind, and then writes back the following ones to their original
masters.

The boundary is recognised by the equality `head_cnt == prev_head_cnt`, but
`nvlog_peek_head` itself moves the head over a filler.  When the writeback had
drained the log, a filler appended next starts exactly at the boundary, the
equality is stepped over, and the first loop drops entries that were never
written back (`np_cur_act_dangles`).  With no filler at the boundary, and room
for every filler in the ring, the current master never dangles
(`np_cur_act_live`).
-/
import TimeStone.Nvlog
import TimeStone.Clock
import TimeStone.Lib.Run

namespace TimeStone.Ckptlog

variable {α : Type*}

/-- `ts_ckpt_entry_hdr_t` with the object behind it.  The object of a tombstone
is never initialised. -/
structure CkptEntry (α : Type*) where
  ckptSClk : ℕ
  npOrgAct : ℕ
  tombstone : Bool
  objSize : ℕ
  obj : Option α

/-- The address of the object area of a checkpoint entry: a log and the ring
index of the entry. -/
structure EntryPtr where
  log : ℕ
  index : ℕ
  deriving DecidableEq

/-- The part of a copy header (`ts_cpy_hdr_struct_t`) that `_ckptlog_enq` reads:
the original actual object behind `p_act_vhdr`, the object size and the object. -/
structure Chs (α : Type*) where
  npOrgAct : ℕ
  objSize : ℕ
  obj : α

/-- All checkpoint logs with the state they share: `np_cur_act` of every volatile
header (`none` is the original master), the original masters, and per log the
free set and `__min_ckpt_reclaimed`.  `freed` records the objects for which a
tombstone was requested. -/
structure State (α : Type*) where
  logs : ℕ → Nvlog (CkptEntry α)
  npCurAct : ℕ → Option EntryPtr
  orgAct : ℕ → α
  freeSet : ℕ → List ℕ
  minCkptReclaimed : ℕ → ℕ
  freed : ℕ → Bool

/-- Replace the log `l`. -/
def State.setLog (s : State α) (l : ℕ) (L : Nvlog (CkptEntry α)) : State α :=
  { s with logs := Function.update s.logs l L }

@[simp] theorem logs_setLog (s : State α) (l : ℕ) (L : Nvlog (CkptEntry α)) :
    (s.setLog l L).logs l = L := Function.update_self _ _ _

theorem logs_setLog_ne (s : State α) {l k : ℕ} (h : k ≠ l) (L : Nvlog (CkptEntry α)) :
    (s.setLog l L).logs k = s.logs k := Function.update_of_ne h _ _

/-- The size of the checkpoint entry header with the object, which `_ckptlog_enq`
asks `nvlog_enq` for. -/
def ckptEnqSize (objSize : ℕ) : ℕ := uint (sizeofCkptEntryHdr + sizeofObjHdr + objSize)

/-- The checkpoint entry that `_ckptlog_enq` writes for a copy. -/
def Chs.entry (chs : Chs α) (ckptSClk : ℕ) (isTombstone : Bool) : CkptEntry α where
  ckptSClk := ckptSClk
  npOrgAct := chs.npOrgAct
  tombstone := isTombstone
  objSize := chs.objSize
  obj := if isTombstone then none else some chs.obj

/-- `_ckptlog_enq`.  When `nvlog_enq` returns `NULL` the call returns `NULL` and
the object keeps its master. -/
def ckptlogEnqX (s : State α) (l wrtClk ckptSClk : ℕ) (chs : Chs α) (isTombstone : Bool) :
    State α :=
  match nvlogEnq (s.logs l) (ckptEnqSize chs.objSize) with
  | (L, none) => s.setLog l L
  | (L, some cnt) =>
    { s.setLog l (nvlogFill L cnt wrtClk (chs.entry ckptSClk isTombstone)) with
      npCurAct := Function.update s.npCurAct chs.npOrgAct (some ⟨l, nvlogIndex L cnt⟩) }

/-- `ckptlog_enq`. -/
def ckptlogEnq (s : State α) (l wrtClk ckptSClk : ℕ) (chs : Chs α) : State α :=
  ckptlogEnqX s l wrtClk ckptSClk chs false

/-- `ckptlog_enq_tombstone`. -/
def ckptlogEnqTombstone (s : State α) (l wrtClk ckptSClk : ℕ) (chs : Chs α) : State α :=
  { ckptlogEnqX s l wrtClk ckptSClk chs true with
    freed := Function.update s.freed chs.npOrgAct true }

/-- The first loop of `ckptlog_reclaim_x`: drop the entries before
`prev_head_cnt`, collecting the objects of tombstones.  It returns the last entry
it peeked at. -/
def reclaimLoop (l : ℕ) : ℕ → State α → Option (State α × Option (NvlogEntry (CkptEntry α)))
  | 0, _ => none
  | fuel + 1, s => do
    let (L, r) ← nvlogPeekHead (s.logs l)
    match r with
    | none => some (s.setLog l L, none)
    | some e =>
      if L.headCnt = L.prevHeadCnt then some (s.setLog l L, some e)
      else do
        let ck ← e.obj
        let (L', _) ← nvlogDeq L
        reclaimLoop l fuel
          { s.setLog l L' with
            freeSet := if ck.tombstone
              then Function.update s.freeSet l (s.freeSet l ++ [ck.npOrgAct])
              else s.freeSet }

/-- The second loop of `ckptlog_reclaim_x`: write back the entries up to
`wb_limit_clk` that are still current, until enough space is reclaimed. -/
def writebackLoop (B l watermark wbLimitClk : ℕ) : ℕ → State α → Option (State α)
  | 0, _ => none
  | fuel + 1, s => do
    let (L, r) ← nvlogPeekHead (s.logs l)
    match r with
    | none => some (s.setLog l L)
    | some e => do
      let ck ← e.obj
      if gtClock B ck.ckptSClk wbLimitClk then some (s.setLog l L)
      else if s.npCurAct ck.npOrgAct = some ⟨l, nvlogIndex L L.headCnt⟩ ∧
          ck.tombstone = false then
        if nvlogUsed L < watermark then some (s.setLog l L)
        else do
          let obj ← ck.obj
          let (L', _) ← nvlogDeq L
          writebackLoop B l watermark wbLimitClk fuel
            { s.setLog l L' with
              orgAct := Function.update s.orgAct ck.npOrgAct obj
              npCurAct := Function.update s.npCurAct ck.npOrgAct none }
      else do
        let (L', _) ← nvlogDeq L
        writebackLoop B l watermark wbLimitClk fuel (s.setLog l L')

/-- `__min_ckpt_reclaimed` becomes the checkpoint clock of the entry at which the
first loop stopped, if there is one. -/
def noteMinCkpt (s : State α) (l : ℕ) (r : Option (NvlogEntry (CkptEntry α))) : State α :=
  match r.bind NvlogEntry.obj with
  | none => s
  | some ck =>
    { s with minCkptReclaimed := Function.update s.minCkptReclaimed l ck.ckptSClk }

/-- `ckptlog_reclaim_x`.  Both loops advance the head by at least one byte per
round, so the fuel is the number of bytes used. -/
def ckptlogReclaimX (B : ℕ) (s : State α) (l watermark qp2 : ℕ) : Option (State α) := do
  let (s₁, r) ← reclaimLoop l (nvlogUsed (s.logs l) + 1) s
  let newHeadCnt := (s₁.logs l).headCnt
  let s₂ ← writebackLoop B l watermark qp2 (nvlogUsed (s₁.logs l) + 1) (noteMinCkpt s₁ l r)
  let L := { s₂.logs l with prevHeadCnt := (s₂.logs l).headCnt, headCnt := newHeadCnt }
  some (s₂.setLog l (if newHeadCnt = (s.logs l).headCnt then L else nvlogDeqPersist L))

/-- The reclamation modes of a checkpoint log. -/
inductive Mode
  | bestEffort
  | writeback
  | writebackAll
  deriving DecidableEq

/-- The watermark that `ckptlog_reclaim` passes for a mode. -/
def Mode.watermark (logSize : ℕ) : Mode → ℕ
  | .bestEffort => logSize + 1
  | .writeback => ckptlogLowMark
  | .writebackAll => 0

/-- `ckptlog_reclaim`, called with a pending request. -/
def ckptlogReclaim (B : ℕ) (s : State α) (l : ℕ) (mode : Mode) (qp2 : ℕ) : Option (State α) :=
  ckptlogReclaimX B s l (mode.watermark (s.logs l).logSize) qp2

/-- A call on one of the checkpoint logs. -/
inductive Op (α : Type*)
  | enq (l wrtClk ckptSClk : ℕ) (chs : Chs α)
  | enqTombstone (l wrtClk ckptSClk : ℕ) (chs : Chs α)
  | reclaim (l : ℕ) (mode : Mode) (qp2 : ℕ)

/-- One call.  Copies come from a transient version log, so their sizes are those
`tvlog_alloc` accepts. -/
def step (B : ℕ) (s : State α) : Op α → Option (State α)
  | .enq l wrtClk ckptSClk chs =>
    if tvlogAccepts chs.objSize then some (ckptlogEnq s l wrtClk ckptSClk chs) else none
  | .enqTombstone l wrtClk ckptSClk chs =>
    if tvlogAccepts chs.objSize then some (ckptlogEnqTombstone s l wrtClk ckptSClk chs)
    else none
  | .reclaim l mode qp2 => ckptlogReclaim B s l mode qp2

/-- Fresh checkpoint logs over arbitrary original masters. -/
def initial (org : ℕ → α) : State α where
  logs := fun _ => nvlogCreate ckptlogSize
  npCurAct := fun _ => none
  orgAct := org
  freeSet := fun _ => []
  minCkptReclaimed := fun _ => maxVersion
  freed := fun _ => false

/-- The entry `e` at counter `cnt` lies in `[head_cnt, tail_cnt)` of the log. -/
def InLog (L : Nvlog (CkptEntry α)) (cnt : ℕ) (e : NvlogEntry (CkptEntry α)) : Prop :=
  ∃ es, Walk L L.headCnt es L.tailCnt ∧ (cnt, e) ∈ es

/-- `np_cur_act` of the object is `np_org_act`, or the object area of an entry of
the object that lies in some checkpoint log. -/
def CurActLive (s : State α) (o : ℕ) : Prop :=
  s.npCurAct o = none ∨
    ∃ l cnt e ck, s.npCurAct o = some ⟨l, nvlogIndex (s.logs l) cnt⟩ ∧
      InLog (s.logs l) cnt e ∧ e.type = .entry ∧ e.obj = some ck ∧ ck.npOrgAct = o

end TimeStone.Ckptlog
