/-
The state of the whole library: objects, logs, threads and the quiescence thread.

Here the calls of the API and the steps of the QP thread are whole, and the logs are
sequences without a capacity.  It is assumed with this that every entry finds room, that
none runs over entries in use, and that no filler lies where a loop of a reclamation stops.
The ring layout of the logs is the subject of `Nvlog`, `Ckptlog` and `Tvlog`, the steps
inside a commit that of `Commit`.  Copies, checkpoint entries
and threads are numbered in the order in which they are created, so that a number is
never used again, and the log space that a head has passed is marked as given back.

The state ends with histories that no step reads: the versions of an object, the
clocks and rounds at which logs were reclaimed, the transactions that committed and
what every transaction has read.
-/
import Mathlib.Data.List.TakeWhile
import Mathlib.Data.Nat.Basic
import TimeStone.Clock
import TimeStone.Lib.Run

namespace TimeStone.System

/-- The type of a copy header: `TYPE_COPY`, the copy of size zero of
`try_lock_const`, or `TYPE_FREE`. -/
inductive Kind
  | copy
  | const
  | free
  deriving DecidableEq

/-- The status of a copy header. -/
inductive Status
  | none
  | detached
  | tombstoneMarked
  deriving DecidableEq

/-- `ts_cpy_hdr_struct_t` with the object behind it, without `wrt_clk_prev` and the
status, which other threads write. -/
structure Copy (α : Type*) where
  obj : ℕ
  kind : Kind
  content : Option α
  wrtClk : ℕ
  pCopy : Option ℕ
  wrtClkNext : ℕ

/-- `ts_ckpt_entry_t`; `isTomb` is the initial value of its tombstone byte.  The object
of a tombstone is never initialised. -/
structure CkptEntry (α : Type*) where
  obj : ℕ
  wrtClk : ℕ
  ckptSClk : ℕ
  isTomb : Bool
  content : Option α

/-- A committed `ts_wrt_set_t` with the copies in it. -/
structure WrtSet where
  wrtClk : ℕ
  copies : List ℕ

/-- `ts_op_entry_t`; `info` stands for the operation type and the operands. -/
structure OpEntry (β : Type*) where
  localClk : ℕ
  wrtClk : ℕ
  info : β
  deriving DecidableEq

/-- `ts_sys_clks_t`. -/
structure SysClks where
  qp0 : ℕ
  qp1 : ℕ
  qp2 : ℕ
  lastCkpt : ℕ
  minCkptReclaimed : ℕ

/-- A request to reclaim the transient version log. -/
inductive TvReq
  | none
  | bestEffort
  | ckpt
  deriving DecidableEq

/-- A request to reclaim the checkpoint log. -/
inductive CkReq
  | none
  | bestEffort
  | writeback
  | writebackAll
  deriving DecidableEq

/-- `ts_reclaim_t`. -/
structure Reclaim where
  tvlog : TvReq
  ckptlog : CkReq
  deriving DecidableEq

/-- Nothing is requested. -/
def Reclaim.none : Reclaim := ⟨.none, .none⟩

/-- Where a thread is between `ts_thread_init` and `ts_thread_free`.  `finishing` and
`flushed` are the first two steps of `ts_thread_finish`, `limbo` is the time between
`deregister_thread` and `zombinize_thread`. -/
inductive Life
  | fresh
  | live
  | finishing
  | flushed
  | limbo
  | zombie
  | gone
  deriving DecidableEq

/-- Where the QP thread is in its loop.  In `trigger` and `reap` it holds the lock of the
live and of the zombie list, and the list says which threads it is done with. -/
inductive Phase
  | idle
  | waiting (clk : ℕ)
  | detected
  | trigger (r : Reclaim) (done : List ℕ)
  | reapStart (r : Reclaim)
  | reap (r : Reclaim) (done : List ℕ)
  | help (r : Reclaim)
  | barrier (r : Reclaim)
  deriving DecidableEq

/-- What `ts_deref` returns: a copy, a checkpoint entry, or the original master. -/
inductive Loc
  | copy (k : ℕ)
  | entry (e : ℕ)
  | master (o : ℕ)
  deriving DecidableEq

/-- The state.  `none` in `curAct` is the original master, and a content `none` is
memory that holds no object. -/
structure State (α β : Type*) where
  -- objects: `ts_act_vhdr_t` and the original masters
  pLock : ℕ → Option ℕ
  pCopy : ℕ → Option ℕ
  curAct : ℕ → Option ℕ
  tombstoneClk : ℕ → ℕ
  master : ℕ → Option α
  freed : List ℕ
  -- copies
  copies : ℕ → Copy α
  numCopies : ℕ
  wrtClkPrev : ℕ → ℕ
  status : ℕ → Status
  reclaimed : ℕ → Bool
  -- checkpoint entries
  entries : ℕ → CkptEntry α
  numEntries : ℕ
  tombstone : ℕ → Bool
  dropped : ℕ → Bool
  -- threads
  tids : List ℕ
  life : ℕ → Life
  dead : ℕ → Bool
  runCnt : ℕ → ℕ
  localClk : ℕ → ℕ
  ws : ℕ → List ℕ
  txFree : ℕ → List ℕ
  qpRunCnt : ℕ → ℕ
  needWait : ℕ → Bool
  clks : ℕ → SysClks
  req : ℕ → Reclaim
  -- their logs: `[head, prev_head)` and `[prev_head, tail)`
  tvOld : ℕ → List WrtSet
  tvNew : ℕ → List WrtSet
  ckOld : ℕ → List ℕ
  ckNew : ℕ → List ℕ
  ckFree : ℕ → List ℕ
  oplog : ℕ → List (OpEntry β)
  destroyed : ℕ → Bool
  -- the QP thread and the NVM root
  phase : Phase
  qpClks : SysClks
  qpReq : Reclaim
  needFree : Bool
  nvmLastCkpt : ℕ
  -- histories
  lastClk : ℕ
  round : ℕ
  hist : ℕ → List ℕ
  freeClk : ℕ → Option ℕ
  masterWrt : ℕ → ℕ
  commits : List (OpEntry β)
  tvClk : ℕ → ℕ
  tvRound : ℕ → ℕ
  ckClk : ℕ → ℕ
  ckRound : ℕ → ℕ
  enqClk : ℕ → ℕ
  reads : ℕ → List (ℕ × Option Loc)

variable {α β : Type*}

/-- Objects with the contents `org`, no threads. -/
def initial (org : ℕ → α) : State α β where
  pLock := fun _ => none
  pCopy := fun _ => none
  curAct := fun _ => none
  tombstoneClk := fun _ => maxVersion
  master := fun o => some (org o)
  freed := []
  copies := fun _ => ⟨0, .copy, none, maxVersion, none, 0⟩
  numCopies := 0
  wrtClkPrev := fun _ => 0
  status := fun _ => .none
  reclaimed := fun _ => false
  entries := fun _ => ⟨0, 0, 0, false, none⟩
  numEntries := 0
  tombstone := fun _ => false
  dropped := fun _ => false
  tids := []
  life := fun _ => .fresh
  dead := fun _ => false
  runCnt := fun _ => 0
  localClk := fun _ => 0
  ws := fun _ => []
  txFree := fun _ => []
  qpRunCnt := fun _ => 0
  needWait := fun _ => false
  clks := fun _ => ⟨0, 0, 0, 0, 0⟩
  req := fun _ => .none
  tvOld := fun _ => []
  tvNew := fun _ => []
  ckOld := fun _ => []
  ckNew := fun _ => []
  ckFree := fun _ => []
  oplog := fun _ => []
  destroyed := fun _ => false
  phase := .idle
  qpClks := ⟨0, 0, 0, minVersion, maxVersion⟩
  qpReq := .none
  needFree := false
  nvmLastCkpt := minVersion
  lastClk := 0
  round := 0
  hist := fun _ => []
  freeClk := fun _ => none
  masterWrt := fun _ => 0
  commits := []
  tvClk := fun _ => 0
  tvRound := fun _ => 0
  ckClk := fun _ => 0
  ckRound := fun _ => 0
  enqClk := fun _ => 0
  reads := fun _ => []

namespace State

variable (s : State α β)

/-- The thread is inside a transaction: `run_cnt` is odd. -/
def InTx (t : ℕ) : Prop := s.runCnt t % 2 = 1

/-- The thread is in the live list. -/
def InLive (t : ℕ) : Prop := s.life t = .live ∨ s.life t = .finishing ∨ s.life t = .flushed

instance (t : ℕ) : Decidable (s.InTx t) := inferInstanceAs (Decidable (_ = _))

instance (t : ℕ) : Decidable (s.InLive t) := inferInstanceAs (Decidable (_ ∨ _ ∨ _))

/-- `np_cur_act` as a location. -/
def curLoc (o : ℕ) : Loc :=
  match s.curAct o with
  | some e => .entry e
  | none => .master o

/-- The memory at a location. -/
def content : Loc → Option α
  | .copy k => (s.copies k).content
  | .entry e => (s.entries e).content
  | .master o => s.master o

/-- The memory at a location has not been given back. -/
def Valid : Loc → Prop
  | .copy k => s.reclaimed k = false
  | .entry e => s.dropped e = false
  | .master o => o ∉ s.freed

/-- A clock reading lags at most `B` behind every earlier one, and is not
`MAX_VERSION`. -/
def Reading (B v : ℕ) : Prop := s.lastClk ≤ v + B ∧ v < maxVersion

instance (B v : ℕ) : Decidable (s.Reading B v) := inferInstanceAs (Decidable (_ ∧ _))

end State

end TimeStone.System
