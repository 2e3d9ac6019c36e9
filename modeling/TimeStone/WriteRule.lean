/-
The write rule of snapshot isolation (`_ts_try_lock`, `tvlog_commit`, `ws_unlock_abort`,
`try_detach_obj`), with quiescence detection and reclamation running.

The version chains and the locks are those of `VersionChain`.  Here a copy also has a place in
memory: a pointer of a thread means the copy that now lies at its address, so that a pointer
to space that was given back and taken again means another copy (`State.view`).  The memcpy of
`_ts_try_lock` is a step of its own, after the load of `np_cur_act` where there is one, and
`copied` records what it copied.  Contents are named by versions: a copy, or the original
master.

Reclamation runs at the same time, one step for each access to `p_copy` and `np_cur_act`:
`tvlog_reclaim_x` enqueues a copy to the checkpoint log and detaches it, and puts the tombstone
of a freed object there or marks its current entry; `ckptlog_reclaim_x` tests `np_cur_act`,
writes an entry back and stores `np_cur_act`.  Which entries a call visits, and when a log is
reclaimed, is left open, and so is the place of a new copy.

Entries are compared by number: `np_cur_act` of an object is the last entry that was enqueued
for it, and so no entry that is still in a log lies where that one lies.  What becomes of the
original master of a freed object, after its tombstone is given back, is left out.
-/
import TimeStone.VersionChain

namespace TimeStone.WriteRule

open VersionChain (Kind Pc)

/-- What `np_cur_act` points to. -/
inductive Master
  | org
  | entry (e : ℕ)
  deriving DecidableEq

/-- The space of a copy in a transient version log.  `detached` and `marked` are the states
`STATUS_DETACHED` and `STATUS_TOMBSTONE_MARKED`.  `passed` is the round in which a reclamation
went past it, and `behind` says that it was in front of `prev_head_cnt` when the last
reclamation began. -/
structure Slot where
  addr : ℕ
  detached : Bool
  passed : Option ℕ
  behind : Bool
  freed : Bool
  marked : Bool

/-- `ts_ckpt_entry_t`, in the checkpoint log of the thread `log`.  `ver` is the copy that it
was made from. -/
structure Entry where
  log : ℕ
  obj : ℕ
  ver : ℕ
  ckptSClk : ℕ
  passed : Option ℕ
  behind : Bool
  freed : Bool
  tombstone : Bool

/-- What a copy was duplicated from, and the local clock of its transaction. -/
structure Origin where
  src : Option ℕ
  localClk : ℕ

/-- The rest of a `_ts_try_lock` that has the lock: the load of `np_cur_act` and the memcpy to
the new copy `k`. -/
inductive Dup
  | idle
  | loadAct (k : ℕ)
  | copyAct (k : ℕ) (m : Master)
  | copyOld (k j : ℕ)
  deriving DecidableEq

/-- `RECLAIM_TVLOG_BEST_EFFORT`, `RECLAIM_TVLOG_CKPT`. -/
inductive Mode
  | bestEffort
  | ckpt
  deriving DecidableEq

/-- Where a `tvlog_reclaim_x` stands.  In its first loop, `np_cur_act` of a freed object is
loaded for the test (`tomb`), and the tombstone is enqueued (`tombEnq`) or the entry to which
`np_cur_act` points is marked (`tombMark`). -/
inductive TvPc
  | idle
  | loop (m : Mode)
  | tomb (m : Mode) (k : ℕ)
  | tombEnq (m : Mode) (k : ℕ)
  | tombMark (m : Mode) (k : ℕ)
  | enq (k : ℕ)
  | detach (k : ℕ)
  | detachCas (k : ℕ)
  deriving DecidableEq

/-- Where a `ckptlog_reclaim_x` stands. -/
inductive CkPc
  | idle
  | loop
  | writeback (e : ℕ)
  | store (e : ℕ)
  deriving DecidableEq

/-- The QP thread: the clock of a detection is read (`clock`), then the running transactions
are recorded and waited for (`wait`). -/
inductive Phase
  | idle
  | clock
  | wait
  | detected
  | reclaim (m : Mode)
  deriving DecidableEq

structure State where
  chain : VersionChain.State
  threads : List ℕ
  dup : ℕ → Dup
  aborting : ℕ → Bool
  copied : ℕ → Option Origin
  slot : ℕ → Slot
  mem : ℕ → ℕ
  npCurAct : ℕ → Master
  npOrgAct : ℕ → Option ℕ
  entries : ℕ → Entry
  numEntries : ℕ
  lastClk : ℕ
  phase : Phase
  round : ℕ
  qpClk : ℕ
  qp0 : ℕ
  qp1 : ℕ
  qp2 : ℕ
  lastCkpt : ℕ
  began : ℕ → ℕ
  waiting : List ℕ
  tv : ℕ → TvPc
  tvRound : ℕ → ℕ
  ck : ℕ → CkPc
  ckRound : ℕ → ℕ

def initial : State where
  chain := VersionChain.initial
  threads := []
  dup := fun _ => .idle
  aborting := fun _ => false
  copied := fun _ => none
  slot := fun _ => ⟨0, false, none, false, false, false⟩
  mem := fun _ => 0
  npCurAct := fun _ => .org
  npOrgAct := fun _ => none
  entries := fun _ => ⟨0, 0, 0, 0, none, false, false, false⟩
  numEntries := 0
  lastClk := 0
  phase := .idle
  round := 0
  qpClk := 0
  qp0 := 0
  qp1 := 0
  qp2 := 0
  lastCkpt := 0
  began := fun _ => 0
  waiting := []
  tv := fun _ => .idle
  tvRound := fun _ => 0
  ck := fun _ => .idle
  ckRound := fun _ => 0

namespace State

variable (s : State)

/-- The thread is in a transaction; `ts_abort` ends it before it unlocks. -/
def Active (t : ℕ) : Prop := (s.chain.threads t).pc ≠ .outside ∧ s.aborting t = false

instance (t : ℕ) : Decidable (s.Active t) := inferInstanceAs (Decidable (_ ∧ _))

/-- The thread is between two calls of a transaction. -/
def Ready (t : ℕ) : Prop :=
  (s.chain.threads t).pc = .inTx ∧ s.dup t = .idle ∧ s.aborting t = false

instance (t : ℕ) : Decidable (s.Ready t) := inferInstanceAs (Decidable (_ ∧ _))

/-- A reading of the clock.  The clocks of two cores differ by at most `ordo_boundary()`. -/
def Reads (B v : ℕ) : Prop := s.lastClk ≤ v + B ∧ v < maxVersion

instance (B v : ℕ) : Decidable (s.Reads B v) := inferInstanceAs (Decidable (_ ∧ _))

def read (v : ℕ) : State := { s with lastClk := max s.lastClk v }

/-- The copy that lies where the copy `k` was allocated. -/
def look (k : ℕ) : ℕ := s.mem (s.slot k).addr

def setSlot (k : ℕ) (x : Slot) : State := { s with slot := Function.update s.slot k x }

def setEntry (e : ℕ) (x : Entry) : State := { s with entries := Function.update s.entries e x }

def setDup (t : ℕ) (d : Dup) : State := { s with dup := Function.update s.dup t d }

def setTv (t : ℕ) (pc : TvPc) : State := { s with tv := Function.update s.tv t pc }

def setCk (t : ℕ) (pc : CkPc) : State := { s with ck := Function.update s.ck t pc }

def setCurAct (o : ℕ) (m : Master) : State :=
  { s with npCurAct := Function.update s.npCurAct o m }

/-- The space of a copy is given back. -/
def giveBack (k : ℕ) : State := s.setSlot k { s.slot k with freed := true }

/-- No copy in use lies at the address. -/
def Vacant (a : ℕ) : Prop :=
  ∀ k < s.chain.numCopies, (s.slot k).freed = false → (s.slot k).addr ≠ a

instance (a : ℕ) : Decidable (s.Vacant a) :=
  inferInstanceAs (Decidable (∀ k < s.chain.numCopies, _))

/-- A new copy `k` at the address `a`. -/
def place (k a : ℕ) : State :=
  { s.setSlot k ⟨a, false, none, false, false, false⟩ with mem := Function.update s.mem a k }

/-- The thread passes a quiescent state: `run_cnt` changes. -/
def endRun (t : ℕ) : State := { s with waiting := s.waiting.erase t }

/-- A reclamation goes past the copy. -/
def passSlot (k : ℕ) : State :=
  s.setSlot k { s.slot k with passed := (s.slot k).passed.or (some s.round) }

def passEntry (e : ℕ) : State :=
  s.setEntry e { s.entries e with passed := (s.entries e).passed.or (some s.round) }

/-- The thread in whose log the copy is. -/
def owner (k : ℕ) : ℕ := (s.chain.wss (s.chain.copies k).ws).thread

/-- The copy is in the transient version log of the thread. -/
def InTvlog (t k : ℕ) : Prop :=
  k < s.chain.numCopies ∧ s.owner k = t ∧ (s.slot k).freed = false

instance (t k : ℕ) : Decidable (s.InTvlog t k) := inferInstanceAs (Decidable (_ ∧ _))

/-- The entry is in the checkpoint log of the thread. -/
def InCkptlog (t e : ℕ) : Prop :=
  e < s.numEntries ∧ (s.entries e).log = t ∧ (s.entries e).freed = false

instance (t e : ℕ) : Decidable (s.InCkptlog t e) := inferInstanceAs (Decidable (_ ∧ _))

end State

end TimeStone.WriteRule

namespace TimeStone

/-- The pointers in a program counter to copies of other threads. -/
def VersionChain.Pc.resolve (f : ℕ → ℕ) : VersionChain.Pc → VersionChain.Pc
  | .chkWrtClk o kind k => .chkWrtClk o kind (f k)
  | .chkPending o kind k => .chkPending o kind (f k)
  | .chkWait o kind k => .chkWait o kind (f k)
  | .tryTest o kind old => .tryTest o kind (old.map f)
  | .tryCas o old k => .tryCas o (old.map f) k
  | .recheck o old k => .recheck o (old.map f) k
  | .moveInit k old ks => .moveInit k (old.map f) ks
  | .moveCas k old ks => .moveCas k (old.map f) ks
  | pc => pc

end TimeStone

namespace TimeStone.WriteRule

open VersionChain (Kind Pc)

/-- The chains as the thread sees them: its pointers mean what lies at their addresses. -/
def State.view (s : State) (t : ℕ) : VersionChain.State :=
  match (s.chain.threads t).pc with
  | .stamp _ (k :: _) =>
    s.chain.setCopy k
      { s.chain.copies k with pCopy := (s.chain.copies k).pCopy.map s.look }
  | pc => s.chain.setPc t (pc.resolve s.look)

/-! ### Transactions -/

def begin (B : ℕ) (s : State) (t v : ℕ) : Option State :=
  if t ∈ s.threads ∧ s.Reads B v then
    (VersionChain.step B s.chain (.begin t v)).map fun c =>
      { s.read v with chain := c, began := Function.update s.began t s.round }
  else none

/-- The steps of `_ts_try_lock` up to the lock.  The copy of a failed attempt is given back.
`tvlog_alloc` does not ask whether the space that it takes is in use. -/
def lockStep (B : ℕ) (s : State) (t a : ℕ) : Option State :=
  (VersionChain.lockStep B (s.view t) t).bind fun c =>
    let s₁ := { s with chain := c }
    match (s.chain.threads t).pc with
    | .tryTest _ _ _ =>
      -- `tvlog_append_begin`; when the test fails, `tvlog_append_abort` takes the copy back
      let s₂ := s₁.place s.chain.numCopies a
      some (if (c.threads t).pc = .inTx then s₂.giveBack s.chain.numCopies else s₂)
    | .tryCas _ _ k => some (if (c.threads t).pc = .inTx then s₁.giveBack k else s₁)
    | .recheck _ old k =>
      if k ∈ (c.threads t).copies then
        match old with
        | none => some (s₁.setDup t (.loadAct k))
        | some j => some (s₁.setDup t (.copyOld k (s.look j)))
      -- `p_copy` has changed since the test: the lock is given up
      else some (s₁.giveBack k)
    | _ => some s₁

/-- The memcpy of `_ts_try_lock` is done. -/
def State.duplicated (s : State) (t k : ℕ) (v : Option ℕ) : State :=
  { s.setDup t .idle with
    copied := Function.update s.copied k (some ⟨v, (s.chain.threads t).localClk⟩) }

/-- The version in a master.  Space that was given back may hold anything (`g`), and so may the
object of an entry that was enqueued as a tombstone. -/
def State.masterVer (s : State) (o : ℕ) (g : Option ℕ) : Master → Option ℕ
  | .org => s.npOrgAct o
  | .entry e =>
    if (s.entries e).freed = true ∨ (s.chain.copies (s.entries e).ver).kind = .free then g
    else some (s.entries e).ver

def dupStep (s : State) (t : ℕ) (g : Option ℕ) : Option State :=
  match s.dup t with
  | .idle => none
  | .loadAct k => some (s.setDup t (.copyAct k (s.npCurAct (s.chain.copies k).obj)))
  -- the source of the memcpy was chosen by the load of `np_cur_act`
  | .copyAct k m => some (s.duplicated t k (s.masterVer (s.chain.copies k).obj g m))
  | .copyOld k j => some (s.duplicated t k (if (s.slot j).freed then g else some j))

/-- `ts_end`. -/
def endTx (B : ℕ) (s : State) (t : ℕ) : Option State :=
  if s.Ready t then
    (VersionChain.step B s.chain (.endTx t)).map fun c =>
      if (c.threads t).pc = .outside then { s with chain := c }.endRun t else { s with chain := c }
  else none

def commitStep (B : ℕ) (s : State) (t v : ℕ) : Option State :=
  if (s.chain.threads t).pc = .move [] ∧ ¬ s.Reads B v then none
  else (VersionChain.commitStep B (s.view t) t v).map fun c =>
    let s₁ := { s with chain := c }
    match (s.chain.threads t).pc with
    | .move [] => s₁.read v
    | .stamp _ [] => s₁.endRun t
    | _ => s₁

/-- `ts_abort`, up to the loop of `ws_unlock_abort`. -/
def abort (s : State) (t : ℕ) : Option State :=
  if s.Ready t then
    some { s.endRun t with aborting := Function.update s.aborting t true }
  else none

/-- The loop of `ws_unlock_abort`.  The tail of the log is reset at its end; here the space of
a copy may be taken from its unlock on. -/
def abortStep (s : State) (t : ℕ) : Option State :=
  if s.aborting t then
    let T := s.chain.threads t
    match T.copies with
    | [] => some { s with
        chain := s.chain.setThread t { T with pc := .outside, ws := none, copies := [] }
        aborting := Function.update s.aborting t false }
    | k :: ks => some ({ s with
        chain := (s.chain.setPLock (s.chain.copies k).obj none).setThread t
          { T with copies := ks } }.giveBack k)
  else none

/-! ### The QP thread -/

/-- `qp_detect` reads its clock. -/
def qpClock (B : ℕ) (s : State) (v : ℕ) : Option State :=
  if (s.phase = .idle ∨ s.phase = .detected) ∧ s.Reads B v ∧ s.qpClk ≤ v then
    some { s.read v with phase := .clock, qpClk := v, round := s.round + 1 }
  else none

/-- `qp_init`. -/
def qpInit (s : State) : Option State :=
  if s.phase = .clock then
    some { s with phase := .wait, waiting := s.threads.filter fun t => s.Active t }
  else none

/-- `qp_wait` goes on with a running transaction by the test of its local clock. -/
def qpSkip (B : ℕ) (s : State) (t : ℕ) : Option State :=
  if s.phase = .wait ∧ t ∈ s.waiting ∧ gteClock B (s.chain.threads t).localClk s.qpClk then
    some (s.endRun t)
  else none

/-- `advance_qp_clock`. -/
def qpDone (B : ℕ) (s : State) : Option State :=
  if s.phase = .wait ∧ s.waiting = [] then
    some { s with phase := .detected, qp2 := s.qp1, qp1 := s.qp0, qp0 := correctQpClock B s.qpClk }
  else none

/-- `qp_trigger_reclaim`. -/
def trigger (s : State) (m : Mode) : Option State :=
  if s.phase = .detected then some { s with phase := .reclaim m } else none

/-- `qp_reclaim_barrier`: a call resets the request of its log when it ends. -/
def barrier (s : State) : Option State :=
  match s.phase with
  | .reclaim m =>
    if ∀ t ∈ s.threads, s.tv t = .idle ∧ s.ck t = .idle then
      some { s with
        phase := .idle
        lastCkpt := match m with
          | .ckpt => s.qp0
          | .bestEffort => s.lastCkpt }
    else none
  | _ => none

/-! ### `tvlog_reclaim_x` -/

def tvStart (s : State) (t : ℕ) (m : Mode) : Option State :=
  if t ∈ s.threads ∧ s.tv t = .idle then
    some { s.setTv t (.loop m) with
      tvRound := Function.update s.tvRound t s.round
      slot := fun k => if s.owner k = t then
        { s.slot k with behind := (s.slot k).passed.isSome } else s.slot k }
  else none

/-- The first loop gives the space of a copy back.  A freed object is marked before. -/
def tvDrop (B : ℕ) (s : State) (t k : ℕ) : Option State :=
  match s.tv t with
  | .loop m =>
    if s.InTvlog t k ∧ (s.slot k).behind = true ∧
        (m = .bestEffort → (s.chain.copies k).kind ≠ .free →
          ltClock B (s.chain.copies k).wrtClkPrev s.qp0) then
      -- a record of `ts_free` is given back only behind its tombstone
      if (s.chain.copies k).kind = .free ∧ (s.slot k).marked = false then
        some (s.setTv t (.tomb m k))
      else some (s.giveBack k)
    else none
  | _ => none

/-- The second loop visits a copy. -/
def tvVisit (B : ℕ) (s : State) (t k : ℕ) : Option State :=
  match s.tv t with
  | .loop m =>
    let c := s.chain.copies k
    if s.InTvlog t k ∧ (s.chain.wss c.ws).wrtClk ≠ maxVersion ∧
        ltClock B (s.chain.wss c.ws).wrtClk s.qp0 then
      -- the loop goes past what is not a copy, is detached, or is not at the borderline
      if c.kind = .free ∨ (s.slot k).detached = true ∨
          ¬ atBorderline B c.wrtClk c.wrtClkPrev s.qp0 s.lastCkpt then some (s.passSlot k)
      else match m with
        | .ckpt => some (s.setTv t (.enq k))
        | .bestEffort => none
    else none
  | _ => none

/-- `_ckptlog_enq`. -/
def State.append (s : State) (t k : ℕ) : State :=
  { s with
    entries := Function.update s.entries s.numEntries
      ⟨t, (s.chain.copies k).obj, k, s.qp0, none, false, false,
        decide ((s.chain.copies k).kind = .free)⟩
    numEntries := s.numEntries + 1
    npCurAct := Function.update s.npCurAct (s.chain.copies k).obj (.entry s.numEntries) }

/-- `ckptlog_enq`, with the store of `status` in `try_detach_obj`. -/
def State.enq (s : State) (t k : ℕ) : State :=
  (s.append t k).setSlot k { s.slot k with detached := true }

/-- `STATUS_TOMBSTONE_MARKED`. -/
def State.mark (s : State) (k : ℕ) : State := s.setSlot k { s.slot k with marked := true }

/-- The store to `tombstone` of the entry to which `np_cur_act` points now.  When that is the
original master, the store hits what lies in front of it. -/
def State.markCur (s : State) (k : ℕ) : State :=
  match s.npCurAct (s.chain.copies k).obj with
  | .org => s
  | .entry e => s.setEntry e { s.entries e with tombstone := true }

/-- The case `TYPE_FREE` of the first loop; `ckptlog_enq`, and the test and the
compare-and-swap of `try_detach_obj`. -/
def tvStep (s : State) (t : ℕ) : Option State :=
  match s.tv t with
  | .tomb m k =>
    -- the test of `np_cur_act`; the mark or the enqueue is a step of its own
    if s.npCurAct (s.chain.copies k).obj = .org then some (s.setTv t (.tombEnq m k))
    else some (s.setTv t (.tombMark m k))
  | .tombEnq m k => some (((s.append t k).mark k).setTv t (.loop m))
  | .tombMark m k => some (((s.markCur k).mark k).setTv t (.loop m))
  | .enq k => some ((s.enq t k).setTv t (.detach k))
  | .detach k =>
    if s.chain.pCopy (s.chain.copies k).obj ≠ some k then
      some ((s.passSlot k).setTv t (.loop .ckpt))
    else some (s.setTv t (.detachCas k))
  | .detachCas k =>
    -- a newer version may have come between the test and the compare-and-swap
    let s₁ := if s.chain.pCopy (s.chain.copies k).obj = some k then
        { s with chain := s.chain.setPCopy (s.chain.copies k).obj none }
      else s
    some ((s₁.passSlot k).setTv t (.loop .ckpt))
  | _ => none

def tvEnd (s : State) (t : ℕ) : Option State :=
  match s.tv t with
  | .loop _ => some (s.setTv t .idle)
  | _ => none

/-! ### `ckptlog_reclaim_x` -/

def ckStart (s : State) (t : ℕ) : Option State :=
  if t ∈ s.threads ∧ s.ck t = .idle then
    some { s.setCk t .loop with
      ckRound := Function.update s.ckRound t s.round
      entries := fun e => if (s.entries e).log = t then
        { s.entries e with behind := (s.entries e).passed.isSome } else s.entries e }
  else none

/-- The first loop gives the space of an entry back. -/
def ckDrop (s : State) (t e : ℕ) : Option State :=
  if s.ck t = .loop ∧ s.InCkptlog t e ∧ (s.entries e).behind = true then
    some (s.setEntry e { s.entries e with freed := true })
  else none

/-- The second loop tests an entry.  The watermark may stop the loop there. -/
def ckVisit (B : ℕ) (s : State) (t e : ℕ) : Option State :=
  if s.ck t = .loop ∧ s.InCkptlog t e ∧ lteClock B (s.entries e).ckptSClk s.qp2 then
    if s.npCurAct (s.entries e).obj = .entry e ∧ (s.entries e).tombstone = false then
      some (s.setCk t (.writeback e))
    else some (s.passEntry e)
  else none

/-- The write to the original master, and the store of `np_cur_act`. -/
def ckStep (s : State) (t : ℕ) : Option State :=
  match s.ck t with
  | .writeback e =>
    some { s.setCk t (.store e) with
      npOrgAct := Function.update s.npOrgAct (s.entries e).obj (some (s.entries e).ver) }
  | .store e => some (((s.setCurAct (s.entries e).obj .org).passEntry e).setCk t .loop)
  | _ => none

def ckEnd (s : State) (t : ℕ) : Option State :=
  if s.ck t = .loop then some (s.setCk t .idle) else none

/-! ### Runs -/

/-- The steps.  `v` is a clock reading, `a` the address of a new copy, and `g` what is found
in space that was given back. -/
inductive Op
  | threadInit (t : ℕ)
  | begin (t v : ℕ)
  | lock (t o : ℕ) (kind : Kind)
  | lockStep (t a : ℕ)
  | dupStep (t : ℕ) (g : Option ℕ)
  | free (t k : ℕ)
  | endTx (t : ℕ)
  | commitStep (t v : ℕ)
  | abort (t : ℕ)
  | abortStep (t : ℕ)
  | qpClock (v : ℕ)
  | qpInit
  | qpSkip (t : ℕ)
  | qpDone
  | trigger (m : Mode)
  | barrier
  | tvStart (t : ℕ) (m : Mode)
  | tvDrop (t k : ℕ)
  | tvVisit (t k : ℕ)
  | tvStep (t : ℕ)
  | tvEnd (t : ℕ)
  | ckStart (t : ℕ)
  | ckDrop (t e : ℕ)
  | ckVisit (t e : ℕ)
  | ckStep (t : ℕ)
  | ckEnd (t : ℕ)

def step (B : ℕ) (s : State) : Op → Option State
  | .threadInit t =>
    if t ∈ s.threads then none else some { s with threads := t :: s.threads }
  | .begin t v => begin B s t v
  | .lock t o kind =>
    if s.Ready t then
      (VersionChain.step B s.chain (.lock t o kind)).map fun c => { s with chain := c }
    else none
  | .lockStep t a => lockStep B s t a
  | .dupStep t g => dupStep s t g
  | .free t k =>
    if s.Ready t then
      (VersionChain.step B s.chain (.free t k)).map fun c => { s with chain := c }
    else none
  | .endTx t => endTx B s t
  | .commitStep t v => commitStep B s t v
  | .abort t => abort s t
  | .abortStep t => abortStep s t
  | .qpClock v => qpClock B s v
  | .qpInit => qpInit s
  | .qpSkip t => qpSkip B s t
  | .qpDone => qpDone B s
  | .trigger m => trigger s m
  | .barrier => barrier s
  | .tvStart t m => tvStart s t m
  | .tvDrop t k => tvDrop B s t k
  | .tvVisit t k => tvVisit B s t k
  | .tvStep t => tvStep s t
  | .tvEnd t => tvEnd s t
  | .ckStart t => ckStart s t
  | .ckDrop t e => ckDrop s t e
  | .ckVisit t e => ckVisit B s t e
  | .ckStep t => ckStep s t
  | .ckEnd t => ckEnd s t

/-- A log is reclaimed in the reclamation phase of a round, and only once in it. -/
def OncePerRound (s : State) (round : ℕ) : Prop :=
  (s.phase = .reclaim .bestEffort ∨ s.phase = .reclaim .ckpt) ∧ round < s.round

instance (s : State) (round : ℕ) : Decidable (OncePerRound s round) :=
  inferInstanceAs (Decidable (_ ∧ _))

/-- A writeback finds `np_cur_act` as it was tested. -/
def StillCurrent (s : State) : CkPc → Prop
  | .writeback e | .store e => s.npCurAct (s.entries e).obj = .entry e
  | _ => True

instance (s : State) (pc : CkPc) : Decidable (StillCurrent s pc) := by
  induction pc using CkPc.casesOn <;> (dsimp only [StillCurrent]; infer_instance)

/-- A mark finds an entry in `np_cur_act`, as the test did. -/
def StillEntry (s : State) : TvPc → Prop
  | .tombMark _ k => s.npCurAct (s.chain.copies k).obj ≠ .org
  | _ => True

instance (s : State) (pc : TvPc) : Decidable (StillEntry s pc) := by
  induction pc using TvPc.casesOn <;> (dsimp only [StillEntry]; infer_instance)

/-- A new copy takes space that is not in use: its log has not run over its `head_cnt`. -/
def NoOverrun (s : State) (a : ℕ) : Pc → Prop
  | .tryTest _ _ _ => s.Vacant a
  | _ => True

instance (s : State) (a : ℕ) (pc : Pc) : Decidable (NoOverrun s a pc) := by
  induction pc using Pc.casesOn <;> (dsimp only [NoOverrun]; infer_instance)

/-- The condition on a step: a lock does not run over copies that are in use; nothing changes
`np_cur_act` during a writeback, and no writeback ends between the test and the mark of a
tombstone; a log is reclaimed at most once in a round; `qp_wait` does not go on with a
transaction that began before the clock of the detection was read. -/
def Orderly (s : State) : Op → Prop
  | .lockStep t a => NoOverrun s a (s.chain.threads t).pc
  | .tvStep t => StillEntry s (s.tv t)
  | .ckStep t => StillCurrent s (s.ck t)
  | .tvStart t _ => OncePerRound s (s.tvRound t)
  | .ckStart t => OncePerRound s (s.ckRound t)
  | .qpSkip t => s.began t = s.round
  | _ => True

instance (s : State) (op : Op) : Decidable (Orderly s op) := by
  induction op using Op.casesOn <;> (dsimp only [Orderly]; infer_instance)

/-- The states of the runs all of whose steps meet a condition. -/
abbrev Reach (B : ℕ) (ok : State → Op → Prop) : State → Prop := Run.Reach (· = initial) (step B) ok

/-- The uncommitted write set `w` holds the lock of the object. -/
def HoldsLock (s : State) (o w : ℕ) : Prop :=
  ∃ t, (s.chain.threads t).ws = some w ∧ (s.chain.wss w).wrtClk = maxVersion ∧
    ∃ k, (s.chain.copies k).obj = o ∧
      (k ∈ (s.chain.threads t).copies ∨ ∃ old, (s.chain.threads t).pc = .recheck o old k)

/-- A committed version of the object. -/
def Version (s : State) (o k : ℕ) : Prop :=
  (s.chain.copies k).inserted = true ∧ (s.chain.copies k).obj = o ∧
    (s.chain.copies k).wrtClk ≠ maxVersion

/-- The version `n` is the immediate predecessor of `k` in the order of commits. -/
def Predecessor (s : State) (o k n : ℕ) : Prop :=
  Version s o n ∧ (s.chain.copies n).wrtClk < (s.chain.copies k).wrtClk ∧
    ∀ j, Version s o j → j ≠ k → (s.chain.copies k).wrtClk < (s.chain.copies j).wrtClk ∨
      (s.chain.copies j).wrtClk ≤ (s.chain.copies n).wrtClk

/-- The version `k` is the first one after the original master. -/
def First (s : State) (o k : ℕ) : Prop :=
  ∀ j, Version s o j → j ≠ k → (s.chain.copies k).wrtClk < (s.chain.copies j).wrtClk

/-- No update is lost: a lock has one holder, and every version was duplicated from its
predecessor, which was in the snapshot of its transaction. -/
structure NoLostUpdate (B : ℕ) (s : State) : Prop where
  lock : ∀ o w w', HoldsLock s o w → HoldsLock s o w' → w = w'
  rule : ∀ o k, Version s o k → ∃ d, s.copied k = some d ∧ match d.src with
    | none => First s o k
    | some n => Predecessor s o k n ∧ ltClock B (s.chain.copies n).wrtClk d.localClk

end TimeStone.WriteRule
