/-
Committing a write set next to readers (`tvlog_commit`, `ts_deref`, `get_wrt_clk`).

The interleaving model of the steps that decide when a write set becomes visible.
A commit inserts every copy into the version chain of its object, reads the clock
`W`, stores it as `pending_wrt_clk`, appends to the operational log, stores it as
`wrt_clk`, and stamps and unlocks the copies one by one.  A reader reads the clock
once in `ts_begin`; its `ts_deref` walks a chain with one load per step, and for a
copy without a stamp looks at `pending_wrt_clk` and may wait for `wrt_clk`.

Clocks are those of different cores: a reading may lag at most `B` behind any
earlier one.  No checkpoint runs, so the oldest version of an object is its
original master, which a read reports as `none`.

The state carries two histories for the statements: `hist o` lists the copies in
the chain of `o` from the newest to the oldest, and `clk` and `localClk` of a write
set are its `W`, from the moment it is read, and the local clock of its
transaction.
-/
import TimeStone.Clock
import TimeStone.Lib.Run

namespace TimeStone.Commit

/-- How `tvlog_commit` treats a locked object: `TYPE_COPY`, `TYPE_FREE`, or the
copy of size zero of `try_lock_const`. -/
inductive Kind
  | copy
  | free
  | const
  deriving DecidableEq

/-- `ts_cpy_hdr_t`. -/
structure Copy where
  obj : ℕ
  ws : ℕ
  kind : Kind
  wrtClk : ℕ
  pCopy : Option ℕ

/-- `ts_wrt_set_t`, with the local clock and the clock `W` of its transaction. -/
structure Ws where
  pendingWrtClk : ℕ
  wrtClk : ℕ
  localClk : ℕ
  clk : Option ℕ

/-- What a thread does next. -/
inductive Pc
  | outside
  | inTx
  | loadWrtClk (o k : ℕ)
  | loadPending (o k : ℕ)
  | wait (o k : ℕ)
  | insert (ks : List ℕ)
  | gotClock (W : ℕ)
  | appendOplog (W : ℕ)
  | publish (W : ℕ)
  | stamp (W : ℕ) (ks : List ℕ)
  deriving DecidableEq

/-- A thread: its local clock, its write set with the copies in it, the entries
`(local_clk, wrt_clk)` of its operational log, and what its current transaction has
read. -/
structure Thread where
  pc : Pc
  localClk : ℕ
  ws : Option ℕ
  copies : List ℕ
  oplog : List (ℕ × ℕ)
  reads : List (ℕ × Option ℕ)

/-- The state; copies and write sets are numbered in the order of allocation. -/
structure State where
  copies : ℕ → Copy
  numCopies : ℕ
  wss : ℕ → Ws
  numWss : ℕ
  pCopy : ℕ → Option ℕ
  pLock : ℕ → Option ℕ
  hist : ℕ → List ℕ
  threads : ℕ → Thread
  lastClk : ℕ

/-- No copies, no transactions. -/
def initial : State where
  copies := fun _ => ⟨0, 0, .copy, maxVersion, none⟩
  numCopies := 0
  wss := fun _ => ⟨maxVersion, maxVersion, 0, none⟩
  numWss := 0
  pCopy := fun _ => none
  pLock := fun _ => none
  hist := fun _ => []
  threads := fun _ => ⟨.outside, 0, none, [], [], []⟩
  lastClk := 0

/-- Replace the thread `t`. -/
def State.setThread (s : State) (t : ℕ) (T : Thread) : State :=
  { s with threads := Function.update s.threads t T }

/-- Replace the copy `k`. -/
def State.setCopy (s : State) (k : ℕ) (c : Copy) : State :=
  { s with copies := Function.update s.copies k c }

/-- Replace the write set `w`. -/
def State.setWs (s : State) (w : ℕ) (x : Ws) : State :=
  { s with wss := Function.update s.wss w x }

/-- A clock reading: at most `B` behind every earlier one, and no `MAX_VERSION`. -/
def Reading (B : ℕ) (s : State) (v : ℕ) : Prop := s.lastClk ≤ v + B ∧ v < maxVersion

instance (B : ℕ) (s : State) (v : ℕ) : Decidable (Reading B s v) :=
  inferInstanceAs (Decidable (_ ∧ _))

/-- `ts_deref` returns the version `r` of the object `o`. -/
def State.record (s : State) (t o : ℕ) (r : Option ℕ) : State :=
  s.setThread t { s.threads t with pc := .inTx, reads := (o, r) :: (s.threads t).reads }

/-- `ts_deref` goes on to the next older copy, or falls back to the master. -/
def State.visit (s : State) (t o : ℕ) : Option ℕ → State
  | none => s.record t o none
  | some k => s.setThread t { s.threads t with pc := .loadWrtClk o k }

/-- `ts_deref` with the write clock `w` of the copy `k`. -/
def State.judge (B : ℕ) (s : State) (t o k w : ℕ) : State :=
  if ltClock B w (s.threads t).localClk then s.record t o (some k)
  else s.visit t o (s.copies k).pCopy

/-- The next load of a `ts_deref` that is under way.  `none` when the thread is in no
`ts_deref`, or waits. -/
def derefStep (B : ℕ) (s : State) (t : ℕ) : Option State :=
  match (s.threads t).pc with
  | .loadWrtClk o k =>
    if (s.copies k).wrtClk ≠ maxVersion then some (s.judge B t o k (s.copies k).wrtClk)
    else some (s.setThread t { s.threads t with pc := .loadPending o k })
  | .loadPending o k =>
    let p := (s.wss (s.copies k).ws).pendingWrtClk
    if p = maxVersion ∨ (s.threads t).localClk < p then some (s.judge B t o k maxVersion)
    else some (s.setThread t { s.threads t with pc := .wait o k })
  | .wait o k =>
    let w := (s.wss (s.copies k).ws).wrtClk
    if w = maxVersion then none else some (s.judge B t o k w)
  | _ => none

/-- `_ts_try_lock` as one step: the object is not locked, and its newest version is
older than the local clock.  The first lock of a transaction allocates its write
set. -/
def lock (B : ℕ) (s : State) (t o : ℕ) (kind : Kind) : Option State :=
  let T := s.threads t
  if T.pc = .inTx ∧ kind ≠ .free ∧ s.pLock o = none ∧
      (∀ k ∈ s.pCopy o, ltClock B (s.copies k).wrtClk T.localClk) then
    let w := T.ws.getD s.numWss
    some { s with
      copies := Function.update s.copies s.numCopies ⟨o, w, kind, maxVersion, none⟩
      numCopies := s.numCopies + 1
      wss := if T.ws = none
        then Function.update s.wss w ⟨maxVersion, maxVersion, T.localClk, none⟩ else s.wss
      numWss := if T.ws = none then s.numWss + 1 else s.numWss
      pLock := Function.update s.pLock o (some s.numCopies)
      threads := Function.update s.threads t
        { T with ws := some w, copies := T.copies ++ [s.numCopies] } }
  else none

/-- `ts_free` of a locked object. -/
def free (s : State) (t k : ℕ) : Option State :=
  if (s.threads t).pc = .inTx ∧ k ∈ (s.threads t).copies then
    some (s.setCopy k { s.copies k with kind := .free })
  else none

/-- The body of the loop of `ws_move_lock_to_copy`. -/
def moveLockToCopy (s : State) (k : ℕ) : State :=
  let c := s.copies k
  match c.kind with
  | .copy =>
    { s.setCopy k { c with pCopy := s.pCopy c.obj } with
      pCopy := Function.update s.pCopy c.obj (some k)
      hist := Function.update s.hist c.obj (k :: s.hist c.obj) }
  | .free | .const => s

/-- The body of the loop of `ws_unlock_commit`: a freed object stays locked. -/
def unlockCommit (s : State) (k W : ℕ) : State :=
  let c := s.copies k
  match c.kind with
  | .copy | .const =>
    { s.setCopy k { c with wrtClk := W } with pLock := Function.update s.pLock c.obj none }
  | .free => s.setCopy k { c with wrtClk := W }

/-- The next step of a `tvlog_commit` that is under way; `v` is the clock reading of
the step that takes one. -/
def commitStep (B : ℕ) (s : State) (t v : ℕ) : Option State := do
  let T := s.threads t
  let w ← T.ws
  match T.pc with
  | .insert (k :: ks) =>
    some ((moveLockToCopy s k).setThread t { T with pc := .insert ks })
  | .insert [] =>
    if Reading B s v ∧ gtClock B v (T.localClk + B) then
      some { (s.setWs w { s.wss w with clk := some v }).setThread t { T with pc := .gotClock v }
        with lastClk := max s.lastClk v }
    else none
  | .gotClock W =>
    some ((s.setWs w { s.wss w with pendingWrtClk := W }).setThread t
      { T with pc := .appendOplog W })
  | .appendOplog W =>
    some (s.setThread t { T with pc := .publish W, oplog := T.oplog ++ [(T.localClk, W)] })
  | .publish W =>
    some ((s.setWs w { s.wss w with wrtClk := W }).setThread t
      { T with pc := .stamp W T.copies })
  | .stamp W (k :: ks) =>
    some ((unlockCommit s k W).setThread t { T with pc := .stamp W ks })
  | .stamp _ [] =>
    some (s.setThread t { T with pc := .outside, ws := none, copies := [] })
  | _ => none

/-- The steps of the threads. -/
inductive Op
  | begin (t v : ℕ)
  | deref (t o : ℕ)
  | derefStep (t : ℕ)
  | lock (t o : ℕ) (kind : Kind)
  | free (t k : ℕ)
  | endTx (t : ℕ)
  | commitStep (t v : ℕ)
  | abort (t : ℕ)

/-- One step. -/
def step (B : ℕ) (s : State) : Op → Option State
  | .begin t v =>
    if (s.threads t).pc = .outside ∧ Reading B s v then
      some { s.setThread t { s.threads t with pc := .inTx, localClk := v, reads := [] } with
        lastClk := max s.lastClk v }
    else none
  | .deref t o => if (s.threads t).pc = .inTx then some (s.visit t o (s.pCopy o)) else none
  | .derefStep t => Commit.derefStep B s t
  | .lock t o kind => Commit.lock B s t o kind
  | .free t k => Commit.free s t k
  | .endTx t =>
    if (s.threads t).pc = .inTx then
      some (s.setThread t { s.threads t with
        pc := if (s.threads t).ws = none then .outside else .insert (s.threads t).copies })
    else none
  | .commitStep t v => Commit.commitStep B s t v
  | .abort t =>
    if (s.threads t).pc = .inTx then
      some { s.setThread t { s.threads t with pc := .outside, ws := none, copies := [] } with
        pLock := fun o => match s.pLock o with
          | none => none
          | some k => if k ∈ (s.threads t).copies then none else some k }
    else none

/-- The version `r` of `o` is older than its copy `k`. -/
def Older (s : State) (o : ℕ) (r : Option ℕ) (k : ℕ) : Prop :=
  ∃ newer older, s.hist o = newer ++ k :: older ∧ ∀ k' ∈ r, k' ∈ older

/-- The version `r` of `o` is its copy `k` or a newer one. -/
def AtLeast (s : State) (o : ℕ) (r : Option ℕ) (k : ℕ) : Prop :=
  ∃ newer older, s.hist o = newer ++ k :: older ∧ ∃ k', r = some k' ∧ (k' = k ∨ k' ∈ newer)

end TimeStone.Commit
