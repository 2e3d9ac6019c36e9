/-
The transient version log of a transaction inside its ring.

`tvlog_alloc` checks no capacity.  What keeps a transaction from running over the head of
the log is the wait in `ts_begin`: it leaves at least a quarter of the ring free.  Whether
that is enough depends on what the transaction locks, so the condition here is on the sizes
that it is given, `WriteSetFits`: they decide, with the place of the log in the ring, which
headers, fillers and paddings the write set has.

* `lockStart_lock` — a lock moves the tail as the sizes say;
* `Started.lockFits` — what `ts_begin` has left free is free at every lock;
* `tvlog_inside_ring` — with such write sets the log never overwrites a live entry;
* `tvlog_overruns_ring` — a transaction with five locks that do not fit.
-/
import TimeStone.LogSpace

namespace TimeStone.ThreadLogs

/-! ### The write set of a transaction -/

/-- Where the entry of an object ends, with its filler and its padding, when the tail is
at `t`. -/
def entryEnd (t size : ℕ) : ℕ :=
  if tvlogWraps t (tvlogEntrySize size)
  then t + tvlogBogusSize t + tvlogEntrySize size
  else t + (tvlogEntrySize size +
    addExtraPadding t (tvlogEntrySize size) sizeofWrtSetStruct false)

/-- The tail after a lock of some size, which is taken or not: without the lock a filler is
all that stays. -/
def tailAfter (t : ℕ) (lock : ℕ × Bool) : ℕ :=
  if lock.2 then entryEnd t lock.1 else roomTail t (tvlogEntrySize lock.1)

/-- The tail after the locks of a transaction that began with the log `T`.  The first one
opens the write set, unless an earlier transaction has left one open. -/
def writeSetEnd (T : Tvlog) (locks : List (ℕ × Bool)) : ℕ := locks.foldl tailAfter (lockStart T)

/-- What `ts_begin` leaves free: a quarter of the ring in any case. -/
def beginRoom (T : Tvlog) : ℕ := max (tvlogSize - tvlogHighMark) (tvlogSize - tvlogUsed T)

/-- The next lock of a transaction that began with the log `T` and has the locks `locks`:
with its header, fillers, entries and paddings the write set takes what `ts_begin` has left
free.  The write-set header needs no filler in front of it, and a filler in front of the
object is shorter than 64 KB and followed by a lock that is taken. -/
def WriteSetFits (T : Tvlog) (locks : List (ℕ × Bool)) (size : ℕ) (locked : Bool) : Prop :=
  entryEnd (writeSetEnd T locks) size ≤ T.tailCnt + beginRoom T ∧
    (T.curWrtSet = none → ¬ tvlogWraps T.tailCnt wsEntrySize) ∧
    (tvlogWraps (writeSetEnd T locks) (tvlogEntrySize size) →
      locked = true ∧ tvlogBogusSize (writeSetEnd T locks) < 2 ^ 16)

instance (T : Tvlog) (locks : List (ℕ × Bool)) (size : ℕ) (locked : Bool) :
    Decidable (WriteSetFits T locks size locked) :=
  inferInstanceAs (Decidable (_ ∧ _ ∧ _))

/-- The logs of a thread, with the log at its last `ts_begin` and what it has locked since. -/
structure TxState where
  logs : State
  start : Tvlog
  locks : List (ℕ × Bool)

/-- What a call adds to the transaction. -/
def TxState.record (s : TxState) : Op → TxState
  | .begin => { s with start := s.logs.tvlog, locks := [] }
  | .lock size locked => { s with locks := s.locks ++ [(size, locked)] }
  | _ => s

/-- One call. -/
def txStep (B : ℕ) (s : TxState) (i : Op) : Option TxState :=
  (step B s.logs i).map fun logs => { s.record i with logs := logs }

/-- `ts_thread_init`. -/
def txInitial : TxState := ⟨initial, tvlogCreate, []⟩

/-- The condition on the locks of a run. -/
def WriteSetsFit (s : TxState) : Op → Prop
  | .lock size locked => WriteSetFits s.start s.locks size locked
  | _ => True

instance (s : TxState) : ∀ i, Decidable (WriteSetsFit s i)
  | .lock size locked => inferInstanceAs (Decidable (WriteSetFits s.start s.locks size locked))
  | .begin | .endTx _ _ _ _ | .abort _ | .tvlogReclaim _ _ _ | .ckptlogReclaim _
  | .oplogReclaim _ => inferInstanceAs (Decidable True)

/-! ### Where the log is -/

theorem lockEnd_eq (T : Tvlog) (size : ℕ) : lockEnd T size = entryEnd (lockStart T) size := rfl

theorem writeSetEnd_append (T : Tvlog) (locks : List (ℕ × Bool)) (lock : ℕ × Bool) :
    writeSetEnd T (locks ++ [lock]) = tailAfter (writeSetEnd T locks) lock := by
  rw [writeSetEnd, List.foldl_append, List.foldl_cons, List.foldl_nil, writeSetEnd]

/-- Once a write set is open the next object goes to the tail. -/
theorem lockStart_of_open {T : Tvlog} (h : T.curWrtSet ≠ none) : lockStart T = T.tailCnt := by
  obtain ⟨i, hi⟩ := Option.ne_none_iff_exists'.mp h
  simp only [lockStart, hi]

/-- A lock moves the tail as its size says. -/
theorem lockStart_lock {T : Tvlog} {size : ℕ} {locked : Bool} (h : TvlogInv T)
    (hacc : tvlogAccepts size) (hfit : LockFits T size locked) :
    lockStart (tvlogLock T size locked) = tailAfter (lockStart T) (size, locked) := by
  rw [lockStart_of_open (curWrtSet_lock h hacc hfit)]
  obtain ⟨st, es, os, hs⟩ := h
  obtain ⟨T', hd, b, hT, hb, hfail, hbeg, -⟩ := tvlogAppendBegin_spec hs hacc hfit
  rw [tvlogLock, hT, tailAfter]
  cases locked with
  | true =>
    rw [if_pos rfl, ← lockEnd_eq, ← hbeg.lockEnd]
    rfl
  | false =>
    -- a lock that is not taken has inserted no filler
    have hw : ¬ tvlogWraps (lockStart T) (tvlogEntrySize size) := fun hw =>
      absurd (hfit.2.2 hw).1 (by decide)
    have hbf : b = false := by
      cases b with
      | false => rfl
      | true => exact absurd (hb rfl) (by decide)
    rw [if_neg Bool.false_ne_true, roomTail, if_neg hw]
    exact hfail hbf

/-- What `ts_begin` has seen, and where the log is since: inside a transaction the head only
moves forward, and the tail is where the locks say. -/
structure Started (s : TxState) : Prop where
  used : tvlogUsed s.start < tvlogHighMark
  start : s.start.headCnt ≤ s.start.tailCnt
  head : s.start.headCnt ≤ s.logs.tvlog.headCnt
  lockStart_eq : lockStart s.logs.tvlog = writeSetEnd s.start s.locks
  opened : s.logs.tvlog.curWrtSet = none →
    s.start.curWrtSet = none ∧ s.logs.tvlog.tailCnt = s.start.tailCnt

/-- A write set that fits what `ts_begin` has left free fits what is free now. -/
theorem Started.lockFits {s : TxState} {size : ℕ} {locked : Bool} (h : Started s)
    (hfit : WriteSetFits s.start s.locks size locked) : LockFits s.logs.tvlog size locked := by
  obtain ⟨hroom, hws, hfill⟩ := hfit
  refine ⟨?_, fun hcur => ?_, fun hw => ?_⟩
  · -- the high mark bounds the start of the transaction
    have hused := h.used
    have hstart := h.start
    have hhead := h.head
    have hmark : tvlogHighMark ≤ tvlogSize := by decide
    have hquarter : beginRoom s.start ≤ tvlogSize - tvlogUsed s.start :=
      max_le (Nat.sub_le_sub_left hused.le _) (le_refl _)
    rw [lockEnd_eq, h.lockStart_eq]
    rw [tvlogUsed] at hused hquarter
    omega
  · obtain ⟨h1, h2⟩ := h.opened hcur
    rw [h2]
    exact hws h1
  · rw [h.lockStart_eq] at hw ⊢
    exact hfill hw

/-! ### Runs -/

/-- The invariant of a run whose write sets fit. -/
structure TxInv (s : TxState) : Prop extends TvInv s.logs where
  started : s.logs.inTx = true → Started s

/-- A call that touches neither the transaction nor the log. -/
theorem Started.congr {s s' : TxState} (h : Started s) (hT : s'.logs.tvlog = s.logs.tvlog)
    (hs : s'.start = s.start) (hl : s'.locks = s.locks) : Started s' := by
  obtain ⟨h1, h2, h3, h4, h5⟩ := h
  refine ⟨?_, ?_, ?_, ?_, ?_⟩ <;> rw [hs]
  · exact h1
  · exact h2
  · rw [hT]
    exact h3
  · rw [hT, hl]
    exact h4
  · rw [hT]
    exact h5

theorem inTx_of_lock {B size : ℕ} {locked : Bool} {s s' : State}
    (h : step B s (.lock size locked) = some s') : s.inTx = true := by
  rw [step, Option.ite_none_left_eq_some] at h
  have h2 := h.2
  simp only [Option.ite_none_right_eq_some] at h2
  exact h2.1.1

/-- `ts_begin`. -/
theorem TxInv.begin {s : TxState} (h : TxInv s) (hused : tvlogUsed s.logs.tvlog < tvlogHighMark) :
    Started { s.record .begin with logs := { s.logs with inTx := true } } := by
  obtain ⟨st, es, os, hs⟩ := h.tvlog
  exact ⟨hused, hs.committed.le.trans hs.openSet.le, le_refl _, rfl, fun hcur => ⟨hcur, rfl⟩⟩

/-- A lock that fits. -/
theorem Started.lock {s : TxState} {size : ℕ} {locked : Bool} (h : Started s)
    (hinv : TvlogInv s.logs.tvlog) (hacc : tvlogAccepts size)
    (hfit : LockFits s.logs.tvlog size locked) {logs : State}
    (hT : logs.tvlog = tvlogLock s.logs.tvlog size locked) :
    Started { s.record (.lock size locked) with logs := logs } := by
  have hcur := curWrtSet_lock hinv hacc hfit
  have hhead : (tvlogLock s.logs.tvlog size locked).headCnt = s.logs.tvlog.headCnt := by
    obtain ⟨st, es, os, hs⟩ := hinv
    obtain ⟨T', hd, b, hb, -, -, hbeg, -⟩ := tvlogAppendBegin_spec hs hacc hfit
    rw [tvlogLock, hb, ← hbeg.head]
    cases locked <;> rfl
  refine ⟨h.used, h.start, ?_, ?_, fun hc => ?_⟩
  · show s.start.headCnt ≤ logs.tvlog.headCnt
    rw [hT, hhead]
    exact h.head
  · show lockStart logs.tvlog = writeSetEnd s.start (s.locks ++ [(size, locked)])
    rw [hT, lockStart_lock hinv hacc hfit, h.lockStart_eq, writeSetEnd_append]
  · rw [← hT] at hcur
    exact absurd hc hcur

/-- Reclamation moves the head forward, and nothing else of the log. -/
theorem Started.reclaim {s : TxState} {B ckptSClk : ℕ} {mode : TvlogMode} {env : Env} {T : Tvlog}
    {sizes : List (ℕ × ℕ)} (h : Started s) (hinv : TvlogInv s.logs.tvlog)
    (hT : tvlogReclaimX B s.logs.tvlog mode env ckptSClk = some (T, sizes)) {logs : State}
    (hlogs : logs.tvlog = T) : Started { s with logs := logs } := by
  obtain ⟨st, es, os, hs⟩ := hinv
  obtain ⟨x, y, _, pre, _, _, -, hpre, -, -, hT', -, -⟩ := hs.reclaimX B mode env ckptSClk
  rw [hT, Option.some_inj, Prod.mk.injEq] at hT'
  obtain ⟨rfl, rfl⟩ := hT'
  refine ⟨h.used, h.start, ?_, ?_, ?_⟩ <;> simp only [hlogs]
  · exact h.head.trans hpre.le
  · exact h.lockStart_eq
  · exact h.opened

theorem txInv_step {B : ℕ} {s s' : TxState} {i : Op} (h : TxInv s) (hok : WriteSetsFit s i)
    (hs : txStep B s i = some s') : TxInv s' := by
  obtain ⟨logs, hstep, rfl⟩ := Option.map_eq_some_iff.mp hs
  have htx : ∀ size locked, i = .lock size locked → Started s := by
    rintro size locked rfl
    exact h.started (inTx_of_lock hstep)
  have hfit : LocksFit s.logs i := by
    match i with
    | .lock size locked => exact (htx size locked rfl).lockFits hok
    | .begin | .endTx _ _ _ _ | .abort _ | .tvlogReclaim _ _ _ | .ckptlogReclaim _
    | .oplogReclaim _ => trivial
  refine ⟨tvInv_step h.toTvInv hfit hstep, fun hin => ?_⟩
  obtain ⟨-, heff⟩ := step_effect hstep
  match i with
  | .begin =>
    obtain ⟨hused, rfl⟩ := heff
    exact h.begin hused
  | .lock size locked =>
    obtain ⟨hacc, rfl⟩ := heff
    exact (htx size locked rfl).lock h.tvlog hacc hfit rfl
  | .endTx wrtClk opdSize lastCkpt freed =>
    -- the log of a commit that finds no room is left as it is
    obtain ⟨-, -, ⟨-, hc⟩ | ⟨-, rfl⟩⟩ := heff
    · obtain ⟨T, -, ⟨-, rfl⟩ | ⟨-, L, -, rfl⟩⟩ := commit_cases hc
      · exact (h.started hin).congr rfl rfl rfl
      · exact absurd hin Bool.false_ne_true
    · exact absurd hin Bool.false_ne_true
  | .abort lastCkpt =>
    obtain ⟨L, -, rfl⟩ := heff
    exact absurd hin Bool.false_ne_true
  | .tvlogReclaim mode env ckptSClk =>
    obtain ⟨T, sizes, hT, rfl⟩ := heff
    exact (h.started hin).reclaim h.tvlog hT rfl
  | .ckptlogReclaim stop =>
    obtain ⟨L, -, rfl⟩ := heff
    exact (h.started hin).congr rfl rfl rfl
  | .oplogReclaim lastCkpt =>
    obtain ⟨L, -, rfl⟩ := heff
    exact (h.started hin).congr rfl rfl rfl

/-- When the write set of every transaction fits what `ts_begin` leaves free, the log is inside
its ring in every state, also while a lock is under way; the bytes that a fitting lock
initialises belong to no live entry; and every reclamation returns. -/
theorem tvlog_inside_ring (B : ℕ) {s : TxState}
    (h : Run.Reach (· = txInitial) (txStep B) WriteSetsFit s) :
    s.logs.tvlog.headCnt ≤ s.logs.tvlog.tailCnt ∧
      s.logs.tvlog.tailCnt - s.logs.tvlog.headCnt ≤ tvlogSize ∧
      (s.logs.inTx = true → ∀ size locked T' hd b, tvlogAccepts size →
        WriteSetFits s.start s.locks size locked →
        tvlogAppendBegin s.logs.tvlog size = (T', hd, b) →
        T'.tailCnt + getEntrySize hd - T'.headCnt ≤ tvlogSize ∧
        ∀ c k, s.logs.tvlog.headCnt ≤ c → c < s.logs.tvlog.tailCnt → s.logs.tvlog.tailCnt ≤ k →
          k < T'.tailCnt + getEntrySize hd → tvlogIndex k ≠ tvlogIndex c) ∧
      ∀ mode env ckptSClk, ∃ r, tvlogReclaimX B s.logs.tvlog mode env ckptSClk = some r := by
  have hi : TxInv s := by
    refine h.invariant ?_ fun s i s' => txInv_step
    rintro s rfl
    exact ⟨⟨tvlogInv_create, fun hf => absurd hf Bool.false_ne_true⟩,
      fun hin => absurd hin Bool.false_ne_true⟩
  obtain ⟨x, es, os, hs⟩ := hi.tvlog
  have h1 := hs.committed.le
  have h2 := hs.openSet.le
  have h3 := hs.cap
  refine ⟨by omega, by omega, fun hin size locked T' hd b hacc hws hT => ?_,
    fun mode env ckptSClk => ?_⟩
  · have hfit := (hi.started hin).lockFits hws
    refine ⟨?_, fun c k => tvlogAppendBegin_disjoint hi.tvlog hacc hfit hT⟩
    obtain ⟨T₁, hd₁, b₁, hT₁, -, -, hbeg, -⟩ := tvlogAppendBegin_spec hs hacc hfit
    rw [hT, Prod.mk.injEq, Prod.mk.injEq] at hT₁
    obtain ⟨rfl, rfl, -⟩ := hT₁
    have hroom := hfit.1
    rw [hbeg.lockEnd, hbeg.head]
    omega
  · obtain ⟨T', sizes, hT, -⟩ := tvlogInv_reclaimX B mode env ckptSClk hi.tvlog
    exact ⟨_, hT⟩

/-- Two transactions: one of 780000 bytes, and one that locks five objects of 50000 bytes, a
quarter of the ring. -/
theorem tvlog_inside_ring_quarter :
    ∃ s, Run.Reach (· = txInitial) (txStep 0) WriteSetsFit s ∧
      s.logs.tvlog.tailCnt = 1030912 ∧
      s.logs.tvlog.tailCnt - s.logs.tvlog.headCnt ≤ tvlogSize := by
  have hd : ((Run.exec (txStep 0) WriteSetsFit txInitial
      (.begin :: .lock 780000 true :: .endTx 100 0 0 (fun _ => false) :: .begin ::
        List.replicate 5 (.lock 50000 true))).map fun s => decide
          (s.logs.tvlog.tailCnt = 1030912)) = some true := by
    decide +kernel
  obtain ⟨s, hr, ht⟩ : ∃ s, Run.Reach (· = txInitial) (txStep 0) WriteSetsFit s ∧ _ :=
    Run.Reach.exists_of_exec (.init rfl) hd
  exact ⟨s, hr, ht, (tvlog_inside_ring 0 hr).2.1⟩

/-- A transaction on an empty log: five locks of 250000 bytes run over the head. -/
theorem tvlog_overruns_ring :
    ∃ s, Run.Reach (· = txInitial) (txStep 0) Run.any s ∧
      tvlogSize < s.logs.tvlog.tailCnt - s.logs.tvlog.headCnt := by
  have hd : ((Run.exec (txStep 0) Run.any txInitial
      (.begin :: List.replicate 5 (.lock 250000 true))).map fun s => decide
        (tvlogSize < s.logs.tvlog.tailCnt - s.logs.tvlog.headCnt)) = some true := by
    decide +kernel
  exact Run.Reach.exists_of_exec (.init rfl) hd

end TimeStone.ThreadLogs
