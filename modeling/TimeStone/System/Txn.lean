/-
Transactions and the life of a thread (`timestone.c`).

A lock that fails changes nothing, so `lock` is the successful one.  The loops of `ws_move_lock_to_copy` and `ws_unlock_commit` touch different objects in
every iteration; `commitCopy` does both for one copy.
-/
import TimeStone.System.Reclaim

namespace TimeStone.System

variable {α β : Type*}

namespace State

variable (s : State α β)

/-- `ts_thread_init`: register a new thread. -/
def threadInit (t : ℕ) : State α β :=
  { s with
    tids := t :: s.tids
    life := Function.update s.life t .live
    clks := Function.update s.clks t ⟨0, 0, 0, minVersion, maxVersion⟩
    req := Function.update s.req t .none }

/-- `ts_begin` after the logs are reclaimed. -/
def start (t v : ℕ) : State α β :=
  { s with
    runCnt := Function.update s.runCnt t (s.runCnt t + 1)
    localClk := Function.update s.localClk t v
    reads := Function.update s.reads t []
    lastClk := max s.lastClk v }

/-- The loop of `ts_deref` from the copy `k` on.  `none` when it runs into log space that
was given back, or out of fuel. -/
def walk (B t o : ℕ) : ℕ → ℕ → Option Loc
  | 0, _ => none
  | fuel + 1, k =>
    let c := s.copies k
    -- the copy lies in space that was given back, where anything may be found
    if s.reclaimed k then none
    else if ltClock B c.wrtClk (s.localClk t) then some (.copy k)
    -- the older versions were checkpointed
    else if ltClock B c.wrtClkNext (s.clks t).lastCkpt then some (s.curLoc o)
    else
      match c.pCopy with
      | none => some (s.curLoc o)
      | some k' => walk B t o fuel k'

/-- `ts_deref`. -/
def deref (B t o : ℕ) : Option Loc :=
  match s.pCopy o with
  | none => some (s.curLoc o)
  | some k => s.walk B t o s.numCopies k

/-- A transaction remembers what `ts_deref` returned. -/
def record (t o : ℕ) (r : Option Loc) : State α β :=
  { s with reads := Function.update s.reads t ((o, r) :: s.reads t) }

/-- `_ts_try_lock` may take the lock of `o`. -/
def MayLock (B t o : ℕ) : Prop :=
  s.pLock o = none ∧ ∀ k ∈ s.pCopy o, ltClock B (s.copies k).wrtClk (s.localClk t)

instance (B t o : ℕ) : Decidable (s.MayLock B t o) := inferInstanceAs (Decidable (_ ∧ _))

/-- `_ts_try_lock` takes the lock of `o` and duplicates its newest version. -/
def lock (t o : ℕ) (kind : Kind) : State α β :=
  let content := match s.pCopy o with
    | some k => (s.copies k).content
    | none => s.content (s.curLoc o)
  { s with
    copies := Function.update s.copies s.numCopies ⟨o, kind, content, maxVersion, none, 0⟩
    numCopies := s.numCopies + 1
    wrtClkPrev := Function.update s.wrtClkPrev s.numCopies 0
    status := Function.update s.status s.numCopies .none
    reclaimed := Function.update s.reclaimed s.numCopies false
    pLock := Function.update s.pLock o (some s.numCopies)
    ws := Function.update s.ws t (s.ws t ++ [s.numCopies]) }

/-- The transaction writes its copy `k`. -/
def write (k : ℕ) (a : α) : State α β :=
  { s with copies := Function.update s.copies k { s.copies k with content := some a } }

/-- `ts_free`. -/
def free (t o : ℕ) : State α β :=
  { s with txFree := Function.update s.txFree t (o :: s.txFree t) }

/-- The new version `k` of its object, with the write clock `W`. -/
def commitNew (W k : ℕ) : State α β :=
  let c := s.copies k
  { s with
    copies := Function.update s.copies k
      { c with
        wrtClk := W
        pCopy := s.pCopy c.obj
        wrtClkNext := match s.pCopy c.obj with
          | none => minVersion
          | some j => (s.copies j).wrtClk }
    wrtClkPrev := match s.pCopy c.obj with
      | none => Function.update s.wrtClkPrev k maxVersion
      -- the older version learns the clock of the newer one
      | some j => Function.update (Function.update s.wrtClkPrev k maxVersion) j W
    pCopy := Function.update s.pCopy c.obj (some k)
    pLock := Function.update s.pLock c.obj none
    hist := Function.update s.hist c.obj (k :: s.hist c.obj) }

/-- The copy of size zero `k` is unlocked. -/
def commitConst (W k : ℕ) : State α β :=
  { s with
    copies := Function.update s.copies k { s.copies k with wrtClk := W }
    pLock := Function.update s.pLock (s.copies k).obj none }

/-- The object of `k` is freed, and stays locked. -/
def commitFree (W k : ℕ) : State α β :=
  { s with
    copies := Function.update s.copies k { s.copies k with kind := .free, wrtClk := W }
    freeClk := Function.update s.freeClk (s.copies k).obj (some W) }

/-- The bodies of `ws_move_lock_to_copy` and `ws_unlock_commit`. -/
def commitCopy (t W k : ℕ) : State α β :=
  if (s.copies k).obj ∈ s.txFree t then s.commitFree W k
  else
    match (s.copies k).kind with
    | .copy => s.commitNew W k
    | .const | .free => s.commitConst W k

/-- The write set of `t` gets the write clock `W` and its operation is logged. -/
def commitSet (t W : ℕ) (info : β) : State α β :=
  { s with
    lastClk := max s.lastClk W
    ws := Function.update s.ws t []
    tvNew := Function.update s.tvNew t (s.tvNew t ++ [⟨W, s.ws t⟩])
    oplog := Function.update s.oplog t (s.oplog t ++ [⟨s.localClk t, W, info⟩])
    commits := ⟨s.localClk t, W, info⟩ :: s.commits }

/-- The end of a transaction. -/
def stop (t : ℕ) : State α β :=
  { s with
    runCnt := Function.update s.runCnt t (s.runCnt t + 1)
    txFree := Function.update s.txFree t [] }

/-- `tvlog_commit`. -/
def tvlogCommit (t W : ℕ) (info : β) : State α β :=
  (s.ws t).foldl (fun s k => s.commitCopy t W k) (s.commitSet t W info)

/-- `ws_unlock_abort`. -/
def unlockAbort (t : ℕ) : State α β :=
  { s with
    ws := Function.update s.ws t []
    pLock := fun o => match s.pLock o with
      | none => none
      | some k => if k ∈ s.ws t then none else some k }

end State

end TimeStone.System
