/-
The logs of one thread and the calls that write and reclaim them.

A thread owns a transient version log, an operational log and a checkpoint log.
Other threads and the QP thread act on them only through the clocks, the requests
and the object headers that the reclamation reads, so those enter every call as
arbitrary arguments: a schedule of the whole system is a schedule of calls here.

`nvlog_enq` reports a full log by `NULL`, which its callers dereference in a
release build.  The model records this in `overflow` and takes no step after it.
-/
import TimeStone.Nvlog
import TimeStone.Tvlog
import TimeStone.Ckptlog
import TimeStone.Lib.Run

namespace TimeStone.ThreadLogs

/-- The logs of a thread, and the parts of `ts_thread_struct_t` that decide when
they are written. -/
structure State where
  tvlog : Tvlog
  oplog : Nvlog Unit
  ckptlog : Nvlog Unit
  inTx : Bool
  isWriteDetected : Bool
  overflow : Bool

/-- `ts_thread_init`. -/
def initial : State where
  tvlog := tvlogCreate
  oplog := nvlogCreate oplogSize
  ckptlog := nvlogCreate ckptlogSize
  inTx := false
  isWriteDetected := false
  overflow := false

/-- `nvlog_enq` by a caller that fills the entry; the flag says that the entry
was not `NULL`. -/
def enq (L : Nvlog Unit) (wrtClk objSize : ℕ) : Nvlog Unit × Bool :=
  match nvlogEnq L objSize with
  | (L', none) => (L', false)
  | (L', some cnt) => (nvlogFill L' cnt wrtClk (), true)

/-- `oplog_enq` of an operation with `opdSize` bytes of operands. -/
def oplogEnq (L : Nvlog Unit) (wrtClk opdSize : ℕ) : Nvlog Unit × Bool :=
  enq L wrtClk (uint (sizeofOpEntryHdr + opdSize))

/-- `_ckptlog_enq` for objects of the given write clocks and sizes, one after the
other, and `ckptlog_enq_persist`. -/
def ckptlogEnqAll : Nvlog Unit → List (ℕ × ℕ) → Nvlog Unit × Bool
  | L, [] => (nvlogEnqPersist L, true)
  | L, (wrtClk, objSize) :: ns =>
    match enq L wrtClk (Ckptlog.ckptEnqSize objSize) with
    | (L', false) => (L', false)
    | (L', true) => ckptlogEnqAll L' ns

/-- `oplog_reclaim` with `RECLAIM_OPLOG_NORMAL`. -/
def oplogReclaim (B : ℕ) (L : Nvlog Unit) (lastCkpt : ℕ) : Option (Nvlog Unit) := do
  let L' ← nvlogDrain (fun _ e => decide (ltClock B e.wrtClk lastCkpt)) (nvlogUsed L + 1) L
  some (if L'.headCnt = L.headCnt then L' else nvlogDeqPersist L')

/-- `oplog_try_request_ckpt_if_needed`, without the request. -/
def oplogReclaimIfNeeded (B : ℕ) (L : Nvlog Unit) (lastCkpt : ℕ) : Option (Nvlog Unit) :=
  if oplogHighMark ≤ nvlogUsed L then oplogReclaim B L lastCkpt else some L

/-- `ckptlog_reclaim_x`, as far as the log is concerned.  The second loop stops at
a counter for which `stop` says so: its tests read clocks, the watermark and the
headers of the objects. -/
def ckptlogReclaim (L : Nvlog Unit) (stop : ℕ → Bool) : Option (Nvlog Unit) := do
  let L₁ ← nvlogDrain (fun L _ => decide (L.headCnt ≠ L.prevHeadCnt)) (nvlogUsed L + 1) L
  let L₂ ← nvlogDrain (fun L _ => !stop L.headCnt) (nvlogUsed L₁ + 1) L₁
  let L₃ := { L₂ with prevHeadCnt := L₂.headCnt, headCnt := L₁.headCnt }
  some (if L₁.headCnt = L.headCnt then L₃ else nvlogDeqPersist L₃)

/-- A call of the thread, or of the QP thread on its logs. -/
inductive Op
  | begin
  | lock (size : ℕ) (locked : Bool)
  | endTx (wrtClk opdSize lastCkpt : ℕ) (freed : ℕ → Bool)
  | abort (lastCkpt : ℕ)
  | tvlogReclaim (mode : TvlogMode) (env : Env) (ckptSClk : ℕ)
  | ckptlogReclaim (stop : ℕ → Bool)
  | oplogReclaim (lastCkpt : ℕ)

/-- `tvlog_commit`. -/
def commit (B : ℕ) (s : State) (wrtClk opdSize lastCkpt : ℕ) (freed : ℕ → Bool) :
    Option State := do
  let T ← tvlogCommit s.tvlog wrtClk freed
  match oplogEnq s.oplog wrtClk opdSize with
  | (L, false) => some { s with oplog := L, overflow := true }
  | (L, true) => do
    let L' ← oplogReclaimIfNeeded B (nvlogEnqPersist L) lastCkpt
    some { s with tvlog := T, oplog := L', inTx := false, isWriteDetected := false }

/-- One call. -/
def step (B : ℕ) (s : State) (i : Op) : Option State :=
  if s.overflow then none
  else match i with
    | .begin =>
      -- `ts_begin` waits for reclamations until the log is below its high mark
      if s.inTx = false ∧ tvlogUsed s.tvlog < tvlogHighMark then some { s with inTx := true }
      else none
    | .lock size locked =>
      if s.inTx = true ∧ tvlogAccepts size then
        some { s with
          tvlog := tvlogLock s.tvlog size locked
          isWriteDetected := s.isWriteDetected || locked }
      else none
    | .endTx wrtClk opdSize lastCkpt freed =>
      if s.inTx = true ∧ wrtClk < maxVersion ∧ opdSize ≤ maxOperandSize then
        if s.isWriteDetected then commit B s wrtClk opdSize lastCkpt freed
        else some { s with inTx := false }
      else none
    | .abort lastCkpt =>
      if s.inTx = true then do
        let L ← oplogReclaim B s.oplog lastCkpt
        some { s with
          tvlog := tvlogAbort s.tvlog
          oplog := L
          inTx := false
          isWriteDetected := s.isWriteDetected && s.tvlog.curWrtSet.isNone }
      else none
    | .tvlogReclaim mode env ckptSClk => do
      let (T, sizes) ← tvlogReclaimX B s.tvlog mode env ckptSClk
      let (L, ok) := ckptlogEnqAll s.ckptlog sizes
      some { s with tvlog := T, ckptlog := L, overflow := !ok }
    | .ckptlogReclaim stop => do
      let L ← ckptlogReclaim s.ckptlog stop
      some { s with ckptlog := L }
    | .oplogReclaim lastCkpt => do
      let L ← oplogReclaim B s.oplog lastCkpt
      some { s with oplog := L }

/-- What a call has checked and done. -/
def Effect (B : ℕ) (s s' : State) : Op → Prop
  | .begin => tvlogUsed s.tvlog < tvlogHighMark ∧ s' = { s with inTx := true }
  | .lock size locked => tvlogAccepts size ∧ s' = { s with
      tvlog := tvlogLock s.tvlog size locked
      isWriteDetected := s.isWriteDetected || locked }
  | .endTx wrtClk opdSize lastCkpt freed => wrtClk < maxVersion ∧ opdSize ≤ maxOperandSize ∧
      (s.isWriteDetected = true ∧ commit B s wrtClk opdSize lastCkpt freed = some s' ∨
        s.isWriteDetected = false ∧ s' = { s with inTx := false })
  | .abort lastCkpt => ∃ L, oplogReclaim B s.oplog lastCkpt = some L ∧ s' = { s with
      tvlog := tvlogAbort s.tvlog
      oplog := L
      inTx := false
      isWriteDetected := s.isWriteDetected && s.tvlog.curWrtSet.isNone }
  | .tvlogReclaim mode env ckptSClk => ∃ T sizes,
      tvlogReclaimX B s.tvlog mode env ckptSClk = some (T, sizes) ∧ s' = { s with
        tvlog := T
        ckptlog := (ckptlogEnqAll s.ckptlog sizes).1
        overflow := !(ckptlogEnqAll s.ckptlog sizes).2 }
  | .ckptlogReclaim stop => ∃ L, ckptlogReclaim s.ckptlog stop = some L ∧
      s' = { s with ckptlog := L }
  | .oplogReclaim lastCkpt => ∃ L, oplogReclaim B s.oplog lastCkpt = some L ∧
      s' = { s with oplog := L }

theorem step_effect {B : ℕ} {s s' : State} {i : Op} (h : step B s i = some s') :
    s.overflow = false ∧ Effect B s s' i := by
  unfold step at h
  split at h
  · cases h
  · rename_i hov
    refine ⟨by simpa using hov, ?_⟩
    cases i with
    | begin =>
      simp only [Option.ite_none_right_eq_some, Option.some_inj] at h
      exact ⟨h.1.2, h.2.symm⟩
    | lock size locked =>
      simp only [Option.ite_none_right_eq_some, Option.some_inj] at h
      exact ⟨h.1.2, h.2.symm⟩
    | endTx wrtClk opdSize lastCkpt freed =>
      simp only [Option.ite_none_right_eq_some] at h
      obtain ⟨⟨-, h1, h2⟩, h3⟩ := h
      refine ⟨h1, h2, ?_⟩
      split at h3
      · rename_i hd
        exact Or.inl ⟨hd, h3⟩
      · rename_i hd
        exact Or.inr ⟨by simpa using hd, (Option.some_inj.mp h3).symm⟩
    | abort lastCkpt =>
      simp only [Option.ite_none_right_eq_some, Option.bind_eq_bind,
        Option.bind_eq_some_iff, Option.some_inj] at h
      obtain ⟨-, L, h1, h2⟩ := h
      exact ⟨L, h1, h2.symm⟩
    | tvlogReclaim mode env ckptSClk =>
      simp only [Option.bind_eq_bind, Option.bind_eq_some_iff, Option.some_inj] at h
      obtain ⟨⟨T, sizes⟩, h1, h2⟩ := h
      exact ⟨T, sizes, h1, h2.symm⟩
    | ckptlogReclaim stop =>
      simp only [Option.bind_eq_bind, Option.bind_eq_some_iff, Option.some_inj] at h
      obtain ⟨L, h1, h2⟩ := h
      exact ⟨L, h1, h2.symm⟩
    | oplogReclaim lastCkpt =>
      simp only [Option.bind_eq_bind, Option.bind_eq_some_iff, Option.some_inj] at h
      obtain ⟨L, h1, h2⟩ := h
      exact ⟨L, h1, h2.symm⟩

theorem commit_cases {B wrtClk opdSize lastCkpt : ℕ} {s s' : State} {freed : ℕ → Bool}
    (h : commit B s wrtClk opdSize lastCkpt freed = some s') :
    ∃ T, tvlogCommit s.tvlog wrtClk freed = some T ∧
      ((oplogEnq s.oplog wrtClk opdSize).2 = false ∧
          s' = { s with oplog := (oplogEnq s.oplog wrtClk opdSize).1, overflow := true } ∨
        (oplogEnq s.oplog wrtClk opdSize).2 = true ∧
          ∃ L, oplogReclaimIfNeeded B (nvlogEnqPersist (oplogEnq s.oplog wrtClk opdSize).1)
              lastCkpt = some L ∧
            s' = { s with
              tvlog := T, oplog := L, inTx := false, isWriteDetected := false }) := by
  rw [commit] at h
  simp only [Option.bind_eq_bind, Option.bind_eq_some_iff] at h
  obtain ⟨T, hT, h⟩ := h
  refine ⟨T, hT, ?_⟩
  cases he : oplogEnq s.oplog wrtClk opdSize with
  | mk L ok =>
    rw [he] at h
    cases ok with
    | false => exact Or.inl ⟨rfl, (Option.some_inj.mp h).symm⟩
    | true =>
      simp only [Option.bind_eq_some_iff, Option.some_inj] at h
      obtain ⟨L', h1, h2⟩ := h
      exact Or.inr ⟨rfl, L', h1, h2.symm⟩

end TimeStone.ThreadLogs
