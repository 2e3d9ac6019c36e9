/-
Snapshot reads (`ts_deref`), with the write rule and the reclamation running.

The machine is that of `WriteRule`.  A `ts_deref` takes one step for each access to `p_copy`,
to a copy, to a write set and to `np_cur_act`; its pointers mean what lies at their addresses,
as the other pointers do.  What it returns is recorded together with the version found there,
as long as the transaction runs.

Each thread has its own `__last_ckpt`, with which `ts_deref` cuts a chain off.  It is set when
`qp_trigger_reclaim` comes to the thread, and so it is older than the published one from the
end of a checkpoint to the next trigger.  A request of `tvlog_reclaim` is answered once, and a
checkpoint goes on to the last copy below its clock.
-/
import TimeStone.WriteRule

namespace TimeStone.SnapshotRead

open WriteRule (Mode Master)

/-- Where a `ts_deref` of the object `o` stands: after the load of `p_copy` (`loadClks`), in
`get_wrt_clk` (`wrtClk`, `pending`, `wait`), before the test of `wrt_clk_next` (`next`), before
the load of the next older copy (`older`) or of `np_cur_act` (`curAct`).  `k` is the copy, and
`l` is `last_ckpt_clk`. -/
inductive DerefPc
  | idle
  | loadClks (o k : ℕ)
  | wrtClk (o k l : ℕ)
  | pending (o k l : ℕ)
  | wait (o k l : ℕ)
  | next (o k l : ℕ)
  | older (o k l : ℕ)
  | curAct (o : ℕ)
  deriving DecidableEq

/-- What a `ts_deref` returns: the address of a copy, or a master. -/
inductive Place
  | copy (k : ℕ)
  | master (m : Master)
  deriving DecidableEq

/-- A `ts_deref` of the object that has returned, with the version that it found; `none` is the
original object. -/
structure Read where
  obj : ℕ
  place : Place
  ver : Option ℕ
  deriving DecidableEq

structure State where
  rule : WriteRule.State
  deref : ℕ → DerefPc
  reads : ℕ → List Read
  lastCkpt : ℕ → ℕ
  requested : ℕ → Bool
  untold : List ℕ

def initial : State where
  rule := WriteRule.initial
  deref := fun _ => .idle
  reads := fun _ => []
  lastCkpt := fun _ => 0
  requested := fun _ => false
  untold := []

namespace State

variable (s : State)

def setDeref (t : ℕ) (pc : DerefPc) : State := { s with deref := Function.update s.deref t pc }

/-- The `ts_deref` of the thread returns. -/
def found (t : ℕ) (x : Read) : State :=
  { s.setDeref t .idle with reads := Function.update s.reads t (x :: s.reads t) }

def localClk (t : ℕ) : ℕ := (s.rule.chain.threads t).localClk

/-- What lies where the copy `k` was allocated. -/
def copyAt (k : ℕ) : VersionChain.Copy := s.rule.chain.copies (s.rule.look k)

/-- The write set of that copy. -/
def wsAt (k : ℕ) : VersionChain.Ws := s.rule.chain.wss (s.copyAt k).ws

end State

/-! ### The other steps -/

/-- A checkpoint of the log of the thread has visited all copies below its clock. -/
def Visited (B : ℕ) (r : WriteRule.State) (t : ℕ) : Prop :=
  ∀ k < r.chain.numCopies, r.InTvlog t k →
    (r.chain.wss (r.chain.copies k).ws).wrtClk ≠ maxVersion →
    ltClock B (r.chain.wss (r.chain.copies k).ws).wrtClk r.qp0 → (r.slot k).passed ≠ none

instance (B : ℕ) (r : WriteRule.State) (t : ℕ) : Decidable (Visited B r t) :=
  inferInstanceAs (Decidable (∀ k < r.chain.numCopies, _))

/-- A thread is in one call at a time.  The list of threads is locked while the clocks are
propagated, the barrier waits for all requests, and the mode of a reclamation is the one that
was requested. -/
def Enabled (B : ℕ) (s : State) : WriteRule.Op → Prop
  | .begin t _ | .lock t _ _ | .free t _ | .endTx t | .abort t => s.deref t = .idle
  | .threadInit _ => s.untold = []
  | .barrier => s.untold = [] ∧ ∀ t ∈ s.rule.threads, s.requested t = false
  | .tvStart t m => s.requested t = true ∧ s.rule.phase = .reclaim m
  | .tvEnd t => s.rule.tv t = .loop .ckpt → Visited B s.rule t
  | _ => True

instance (B : ℕ) (s : State) (op : WriteRule.Op) : Decidable (Enabled B s op) := by
  induction op using WriteRule.Op.casesOn <;> (dsimp only [Enabled]; infer_instance)

def run (B : ℕ) (s : State) (op : WriteRule.Op) : Option State :=
  if Enabled B s op then
    (WriteRule.step B s.rule op).map fun r =>
      let s' : State :=
        { s with rule := r, reads := fun t => if r.Active t then s.reads t else [] }
      match op with
      | .trigger _ => { s' with untold := r.threads }
      | .tvEnd t => { s' with requested := Function.update s.requested t false }
      | _ => s'
  else none

/-- The body of the loop of `qp_trigger_reclaim`: the clocks, and then the requests.  A round
without a checkpoint may leave the copies alone (`tvlog` is false). -/
def propagate (s : State) (t : ℕ) (tvlog : Bool) : Option State :=
  if t ∈ s.untold ∧ (s.rule.phase = .reclaim .ckpt → tvlog = true) then
    some { s with
      lastCkpt := Function.update s.lastCkpt t s.rule.lastCkpt
      requested := Function.update s.requested t tvlog
      untold := s.untold.erase t }
  else none

/-! ### `ts_deref` -/

/-- `ts_deref` loads `p_copy`. -/
def deref (s : State) (t o : ℕ) : Option State :=
  if s.rule.Ready t ∧ s.deref t = .idle then
    match s.rule.chain.pCopy o with
    | none => some (s.setDeref t (.curAct o))
    | some k => some (s.setDeref t (.loadClks o k))
  else none

/-- The test of the write clock `w` of the copy. -/
def judge (B : ℕ) (s : State) (t o k l w : ℕ) : State :=
  if ltClock B w (s.localClk t) then s.found t ⟨o, .copy k, some (s.rule.look k)⟩
  else s.setDeref t (.next o k l)

/-- The next step of the `ts_deref` of the thread.  `g` is what is found in a master that was
given back. -/
def derefStep (B : ℕ) (s : State) (t : ℕ) (g : Option ℕ) : Option State :=
  match s.deref t with
  | .idle => none
  | .loadClks o k => some (s.setDeref t (.wrtClk o k (s.lastCkpt t)))
  | .wrtClk o k l =>
    if (s.copyAt k).wrtClk ≠ maxVersion then some (judge B s t o k l (s.copyAt k).wrtClk)
    else some (s.setDeref t (.pending o k l))
  | .pending o k l =>
    if (s.wsAt k).pendingWrtClk = maxVersion ∨ s.localClk t < (s.wsAt k).pendingWrtClk then
      some (judge B s t o k l maxVersion)
    else some (s.setDeref t (.wait o k l))
  | .wait o k l =>
    if (s.wsAt k).wrtClk = maxVersion then none else some (judge B s t o k l (s.wsAt k).wrtClk)
  | .next o k l =>
    if ltClock B (s.copyAt k).wrtClkNext l then some (s.setDeref t (.curAct o))
    else some (s.setDeref t (.older o k l))
  | .older o k l =>
    match (s.copyAt k).pCopy with
    | none => some (s.setDeref t (.curAct o))
    | some j => some (s.setDeref t (.wrtClk o j l))
  | .curAct o =>
    let m := s.rule.npCurAct o
    some (s.found t ⟨o, .master m, s.rule.masterVer o g m⟩)

/-! ### Runs -/

inductive Op
  | run (op : WriteRule.Op)
  | propagate (t : ℕ) (tvlog : Bool)
  | deref (t o : ℕ)
  | derefStep (t : ℕ) (g : Option ℕ)

def step (B : ℕ) (s : State) : Op → Option State
  | .run op => SnapshotRead.run B s op
  | .propagate t tvlog => SnapshotRead.propagate s t tvlog
  | .deref t o => SnapshotRead.deref s t o
  | .derefStep t g => SnapshotRead.derefStep B s t g

/-- The thread has read a clock for its commit that is in the snapshot of `t`, and has not
stored it to the write set `w` of the commit. -/
def Unannounced (B : ℕ) (s : State) (t w : ℕ) (T : VersionChain.Thread) : Prop :=
  match T.pc with
  | .gotClock W => T.ws = some w ∧ ltClock B W (s.localClk t)
  | _ => False

instance (B : ℕ) (s : State) (t w : ℕ) (T : VersionChain.Thread) :
    Decidable (Unannounced B s t w T) := by
  unfold Unannounced
  split <;> infer_instance

/-- The condition on a step of `ts_deref`: a commit clock that it does not find is not in its
snapshot, and its `__last_ckpt` is new enough for the version it goes on to. -/
def UpToDate (B : ℕ) (s : State) (t : ℕ) : DerefPc → Prop
  | .pending _ k _ =>
    ¬ Unannounced B s t (s.copyAt k).ws (s.rule.chain.threads (s.wsAt k).thread)
  | .next _ k l =>
    ltClock B (s.copyAt k).wrtClkNext s.rule.lastCkpt → ltClock B (s.copyAt k).wrtClkNext l
  | _ => True

instance (B : ℕ) (s : State) (t : ℕ) (pc : DerefPc) : Decidable (UpToDate B s t pc) := by
  induction pc using DerefPc.casesOn <;> (dsimp only [UpToDate]; infer_instance)

/-- The clocks of detections lie apart. -/
def Apart (B : ℕ) (r : WriteRule.State) : WriteRule.Op → Prop
  | .qpDone => ltClock B r.qp1 (correctQpClock B r.qpClk)
  | _ => True

instance (B : ℕ) (r : WriteRule.State) (op : WriteRule.Op) : Decidable (Apart B r op) := by
  induction op using WriteRule.Op.casesOn <;> (dsimp only [Apart]; infer_instance)

/-- The condition on the steps other than those of `ts_deref`. -/
def RunsOrderly (B : ℕ) (s : State) : Op → Prop
  | .run op => WriteRule.Orderly s.rule op ∧ Apart B s.rule op
  | _ => True

instance (B : ℕ) (s : State) (op : Op) : Decidable (RunsOrderly B s op) := by
  induction op using Op.casesOn <;> (dsimp only [RunsOrderly]; infer_instance)

/-- The condition on a step. -/
def Orderly (B : ℕ) (s : State) : Op → Prop
  | .derefStep t _ => UpToDate B s t (s.deref t)
  | op => RunsOrderly B s op

instance (B : ℕ) (s : State) (op : Op) : Decidable (Orderly B s op) := by
  induction op using Op.casesOn <;> (dsimp only [Orderly]; infer_instance)

/-- The states of the runs all of whose steps meet a condition. -/
abbrev Reach (B : ℕ) (ok : State → Op → Prop) : State → Prop := Run.Reach (· = initial) (step B) ok

/-- The commit clock of a version, also while it has no stamp. -/
def State.clk (s : State) (k : ℕ) : ℕ := (s.rule.chain.wss (s.rule.chain.copies k).ws).wrtClk

/-- A version of the object that is in the snapshot of the thread. -/
structure Visible (B : ℕ) (s : State) (t o k : ℕ) : Prop where
  inserted : (s.rule.chain.copies k).inserted = true
  obj : (s.rule.chain.copies k).obj = o
  before : ltClock B (s.clk k) (s.localClk t)

/-- The newest version in the snapshot; `none` when only the original object is in it. -/
structure Newest (B : ℕ) (s : State) (t o : ℕ) (v : Option ℕ) : Prop where
  visible : ∀ k, v = some k → Visible B s t o k
  newest : ∀ j, Visible B s t o j → ∃ k, v = some k ∧ s.clk j ≤ s.clk k

/-- The memory that a `ts_deref` returned was not given back, and holds what it found. -/
def Intact (s : State) (x : Read) : Prop :=
  match x.place with
  | .copy k => (s.rule.slot k).freed = false ∧ x.ver = some (s.rule.look k)
  | .master .org => x.ver = s.rule.npOrgAct x.obj
  | .master (.entry e) => (s.rule.entries e).freed = false ∧ x.ver = some (s.rule.entries e).ver

end TimeStone.SnapshotRead
