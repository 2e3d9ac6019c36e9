/-
Version chains under locks, commits, aborts and detaches (`_ts_try_lock`,
`ws_move_lock_to_copy`, `ws_unlock_commit`, `try_detach_obj`).

Every load, store and compare-and-swap on `p_lock` and `p_copy` is a step of its own, and
so are the loads of `get_wrt_clk`; a copy is stamped and unlocked in one step.  A detach
may come between any two steps, of any copy that is committed.  Copies and write sets are
numbered in the order of allocation, and never given back: the logs are assumed to have no
end, so that no copy runs over one that is in use.  The clocks are arbitrary: that two versions of an
object are far apart follows from the test in `_ts_try_lock` and the wait in `new_clock`.

`inserted` of a copy records that `ws_move_lock_to_copy` has put it into the chain.
-/
import TimeStone.Clock
import TimeStone.Lib.Run
import Mathlib.Data.List.Nodup

namespace TimeStone.VersionChain

/-- How a commit treats a locked object: `TYPE_COPY`, `TYPE_FREE`, or the copy of size zero
of `try_lock_const`. -/
inductive Kind
  | copy
  | free
  | const
  deriving DecidableEq

/-- `ts_cpy_hdr_t`. -/
structure Copy where
  obj : ℕ
  ws : ℕ
  kind : Kind
  wrtClk : ℕ
  wrtClkPrev : ℕ
  wrtClkNext : ℕ
  pCopy : Option ℕ
  inserted : Bool

/-- `ts_wrt_set_t`. -/
structure Ws where
  thread : ℕ
  pendingWrtClk : ℕ
  wrtClk : ℕ

/-- What a thread does next: the loads and tests of `_ts_try_lock` (`lockCopy`, `chkWrtClk`,
`chkPending`, `chkWait`), the steps of `try_lock_obj` (`tryTest`, `tryCas`, `recheck`), the
loop of `ws_move_lock_to_copy` (`move`, `moveInit`, `moveCas`), the clock, and the loop of
`ws_unlock_commit`. -/
inductive Pc
  | outside
  | inTx
  | lockCopy (o : ℕ) (kind : Kind)
  | chkWrtClk (o : ℕ) (kind : Kind) (k : ℕ)
  | chkPending (o : ℕ) (kind : Kind) (k : ℕ)
  | chkWait (o : ℕ) (kind : Kind) (k : ℕ)
  | tryTest (o : ℕ) (kind : Kind) (old : Option ℕ)
  | tryCas (o : ℕ) (old : Option ℕ) (k : ℕ)
  | recheck (o : ℕ) (old : Option ℕ) (k : ℕ)
  | move (ks : List ℕ)
  | moveInit (k : ℕ) (old : Option ℕ) (ks : List ℕ)
  | moveCas (k : ℕ) (old : Option ℕ) (ks : List ℕ)
  | gotClock (W : ℕ)
  | publish (W : ℕ)
  | stamp (W : ℕ) (ks : List ℕ)
  deriving DecidableEq

/-- A thread, with its current write set and the copies in it. -/
structure Thread where
  pc : Pc
  localClk : ℕ
  ws : Option ℕ
  copies : List ℕ

structure State where
  copies : ℕ → Copy
  numCopies : ℕ
  wss : ℕ → Ws
  numWss : ℕ
  pCopy : ℕ → Option ℕ
  pLock : ℕ → Option ℕ
  threads : ℕ → Thread

/-- No copies, no transactions. -/
def initial : State where
  copies := fun _ => ⟨0, 0, .copy, maxVersion, 0, 0, none, false⟩
  numCopies := 0
  wss := fun _ => ⟨0, maxVersion, maxVersion⟩
  numWss := 0
  pCopy := fun _ => none
  pLock := fun _ => none
  threads := fun _ => ⟨.outside, 0, none, []⟩

namespace State

variable (s : State)

def setThread (t : ℕ) (T : Thread) : State :=
  { s with threads := Function.update s.threads t T }

def setPc (t : ℕ) (pc : Pc) : State := s.setThread t { s.threads t with pc := pc }

def setCopy (k : ℕ) (c : Copy) : State := { s with copies := Function.update s.copies k c }

def setWs (w : ℕ) (x : Ws) : State := { s with wss := Function.update s.wss w x }

def setPCopy (o : ℕ) (k : Option ℕ) : State := { s with pCopy := Function.update s.pCopy o k }

def setPLock (o : ℕ) (k : Option ℕ) : State := { s with pLock := Function.update s.pLock o k }

end State

/-- `tvlog_append_begin`: the first call of a transaction allocates its write set. -/
def appendBegin (s : State) (t o : ℕ) (kind : Kind) : State :=
  let T := s.threads t
  let w := T.ws.getD s.numWss
  { s with
    copies := Function.update s.copies s.numCopies ⟨o, w, kind, maxVersion, 0, 0, none, false⟩
    numCopies := s.numCopies + 1
    wss := if T.ws = none then Function.update s.wss w ⟨t, maxVersion, maxVersion⟩ else s.wss
    numWss := if T.ws = none then s.numWss + 1 else s.numWss
    threads := Function.update s.threads t { T with ws := some w } }

/-- `_ts_try_lock` with the write clock `w` of the newest copy `k`. -/
def judge (B : ℕ) (s : State) (t o : ℕ) (kind : Kind) (k w : ℕ) : State :=
  if gteClock B w (s.threads t).localClk then s.setPc t .inTx
  else s.setPc t (.tryTest o kind (some k))

/-- The next step of a `_ts_try_lock` that is under way.  `none` when there is none, or when
it waits. -/
def lockStep (B : ℕ) (s : State) (t : ℕ) : Option State :=
  match (s.threads t).pc with
  | .lockCopy o kind =>
    match s.pCopy o with
    | none => some (s.setPc t (.tryTest o kind none))
    | some k => some (s.setPc t (.chkWrtClk o kind k))
  | .chkWrtClk o kind k =>
    if (s.copies k).wrtClk ≠ maxVersion then some (judge B s t o kind k (s.copies k).wrtClk)
    else some (s.setPc t (.chkPending o kind k))
  | .chkPending o kind k =>
    let p := (s.wss (s.copies k).ws).pendingWrtClk
    if p = maxVersion ∨ (s.threads t).localClk < p then some (judge B s t o kind k maxVersion)
    else some (s.setPc t (.chkWait o kind k))
  | .chkWait o kind k =>
    let w := (s.wss (s.copies k).ws).wrtClk
    if w = maxVersion then none else some (judge B s t o kind k w)
  | .tryTest o kind old =>
    let s₁ := appendBegin s t o kind
    if s.pLock o ≠ none ∨ s.pCopy o ≠ old then some (s₁.setPc t .inTx)
    else some (s₁.setPc t (.tryCas o old s.numCopies))
  | .tryCas o old k =>
    if s.pLock o = none then some ((s.setPLock o (some k)).setPc t (.recheck o old k))
    else some (s.setPc t .inTx)
  | .recheck o old k =>
    if s.pCopy o ≠ old then some ((s.setPLock o none).setPc t .inTx)
    else some (s.setThread t
      { s.threads t with pc := .inTx, copies := (s.threads t).copies ++ [k] })
  | _ => none

/-- `get_raw_wrt_clk` of the next older copy, or `MIN_VERSION`. -/
def nextClk (s : State) : Option ℕ → ℕ
  | none => minVersion
  | some k => (s.copies k).wrtClk

/-- `TYPE_COPY` in `ws_unlock_commit`. -/
def unlockCopy (s : State) (k W : ℕ) : State :=
  let c := s.copies k
  let s₁ := (s.setCopy k { c with wrtClk := W }).setPLock c.obj none
  match c.pCopy with
  | none => s₁
  | some old => s₁.setCopy old { s₁.copies old with wrtClkPrev := W }

/-- The body of the loop of `ws_unlock_commit`: a freed object stays locked. -/
def unlockCommit (s : State) (k W : ℕ) : State :=
  match (s.copies k).kind with
  | .copy | .const => unlockCopy s k W
  | .free => s.setCopy k { s.copies k with wrtClk := W, pCopy := none }

/-- The next step of a `tvlog_commit` that is under way; `v` is the clock reading of the step
that takes one. -/
def commitStep (B : ℕ) (s : State) (t v : ℕ) : Option State :=
  let T := s.threads t
  match T.pc with
  | .move (k :: ks) =>
    let c := s.copies k
    match c.kind with
    | .copy => some ((s.setCopy k { c with wrtClkPrev := maxVersion }).setPc t
        (.moveInit k (s.pCopy c.obj) ks))
    | .free | .const => some (s.setPc t (.move ks))
  | .moveInit k old ks =>
    some ((s.setCopy k { s.copies k with pCopy := old, wrtClkNext := nextClk s old }).setPc t
      (.moveCas k old ks))
  | .moveCas k old ks =>
    let c := s.copies k
    if s.pCopy c.obj = old then
      some (((s.setCopy k { c with inserted := true }).setPCopy c.obj (some k)).setPc t (.move ks))
    else some (s.setPc t (.moveInit k (s.pCopy c.obj) ks))
  | .move [] =>
    if gtClock B v (T.localClk + B) ∧ v < maxVersion then some (s.setPc t (.gotClock v)) else none
  | .gotClock W => T.ws.map fun w =>
    (s.setWs w { s.wss w with pendingWrtClk := W }).setPc t (.publish W)
  | .publish W => T.ws.map fun w =>
    (s.setWs w { s.wss w with wrtClk := W }).setPc t (.stamp W T.copies)
  | .stamp W (k :: ks) => some ((unlockCommit s k W).setPc t (.stamp W ks))
  | .stamp _ [] => some (s.setThread t { T with pc := .outside, ws := none, copies := [] })
  | _ => none

inductive Op
  | begin (t v : ℕ)
  | lock (t o : ℕ) (kind : Kind)
  | lockStep (t : ℕ)
  | free (t k : ℕ)
  | endTx (t : ℕ)
  | commitStep (t v : ℕ)
  | abort (t : ℕ)
  | detach (k : ℕ)

def step (B : ℕ) (s : State) : Op → Option State
  | .begin t v =>
    if (s.threads t).pc = .outside ∧ v < maxVersion then
      some (s.setThread t { s.threads t with pc := .inTx, localClk := v })
    else none
  | .lock t o kind =>
    if (s.threads t).pc = .inTx ∧ kind ≠ .free ∧ s.pLock o = none then
      some (s.setPc t (.lockCopy o kind))
    else none
  | .lockStep t => VersionChain.lockStep B s t
  | .free t k =>
    if (s.threads t).pc = .inTx ∧ k ∈ (s.threads t).copies then
      some (s.setCopy k { s.copies k with kind := .free })
    else none
  | .endTx t =>
    if (s.threads t).pc = .inTx then
      -- `is_write_detected` is not set by a lock that fails
      some (s.setPc t (if (s.threads t).copies = [] then .outside
        else .move (s.threads t).copies))
    else none
  | .commitStep t v => VersionChain.commitStep B s t v
  | .abort t =>
    if (s.threads t).pc = .inTx then
      some { s.setThread t { s.threads t with pc := .outside, ws := none, copies := [] } with
        pLock := fun o => match s.pLock o with
          | none => none
          | some k => if k ∈ (s.threads t).copies then none else some k }
    else none
  | .detach k =>
    -- the compare-and-swap of `try_detach_obj`
    if (s.copies k).wrtClk ≠ maxVersion ∧ s.pCopy (s.copies k).obj = some k then
      some (s.setPCopy (s.copies k).obj none)
    else none

/-- The states of all runs. -/
abbrev Reachable (B : ℕ) : State → Prop := Run.Reach (· = initial) (step B) Run.any

/-- The chain of the object `o`: from its `p_copy` along the `p_copy` of the copies. -/
inductive InChain (s : State) (o : ℕ) : ℕ → Prop
  | head {k : ℕ} : s.pCopy o = some k → InChain s o k
  | older {n k : ℕ} : InChain s o n → (s.copies n).pCopy = some k → InChain s o k

/-- The version chains are in order. -/
structure ChainOk (B : ℕ) (s : State) : Prop where
  pair : ∀ o n k, InChain s o n → (s.copies n).pCopy = some k →
    (s.copies n).wrtClk ≠ maxVersion → (s.copies k).wrtClk ≠ maxVersion →
    (s.copies k).wrtClk + 2 * B < (s.copies n).wrtClk ∧
      (s.copies n).wrtClkNext = (s.copies k).wrtClk ∧
      (s.copies k).wrtClkPrev = (s.copies n).wrtClk
  head : ∀ o k, s.pCopy o = some k → (s.copies k).wrtClkPrev = maxVersion
  uncommitted : ∀ o k, InChain s o k → (s.copies k).wrtClk = maxVersion →
    s.pCopy o = some k ∧ s.pLock o = some k
  kind : ∀ o k, InChain s o k → (s.copies k).kind = .copy ∧ (s.copies k).obj = o

end TimeStone.VersionChain
