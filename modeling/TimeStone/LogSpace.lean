/-
Space in the logs of a thread.

None of the three logs blocks a writer.  `ts_begin` waits until the transient
version log is below its high mark, but a transaction may then lock any number of
objects, and `tvlog_alloc` checks no capacity; the operational log and the
checkpoint log only send requests to the QP thread when they pass a mark.

* `tvInv_step` — a call whose lock fits the ring keeps the transient version log
  inside it;
* `nvlogs_never_overflow` — when moreover the operational log has room for one
  more operation at every commit, and the checkpoint log for twice the transient
  version log at every reclamation, no `nvlog_enq` returns `NULL`;
  `ckptlog_overflows` is a run of five transactions that ends in one.
-/
import TimeStone.ThreadLogs
import TimeStone.TvlogRing

namespace TimeStone.ThreadLogs

/-! ### The transient version log -/

/-- The invariant that keeps the transient version log inside its ring. -/
structure TvInv (s : State) : Prop where
  tvlog : TvlogInv s.tvlog
  detected : s.isWriteDetected = true → s.tvlog.curWrtSet ≠ none

/-- The condition on the locks of a run. -/
def LocksFit (s : State) : Op → Prop
  | .lock size locked => LockFits s.tvlog size locked
  | _ => True

instance (s : State) : ∀ i, Decidable (LocksFit s i)
  | .lock size locked => inferInstanceAs (Decidable (LockFits s.tvlog size locked))
  | .begin | .endTx _ _ _ _ | .abort _ | .tvlogReclaim _ _ _ | .ckptlogReclaim _
  | .oplogReclaim _ => inferInstanceAs (Decidable True)

theorem tvlogInv_create : TvlogInv tvlogCreate :=
  ⟨0, [], [], .nil 0, ⟨rfl, rfl⟩, by simp, Nat.dvd_zero _, Nat.zero_le _⟩

theorem curWrtSet_lock {T : Tvlog} {size : ℕ} {locked : Bool} (h : TvlogInv T)
    (hacc : tvlogAccepts size) (hfit : LockFits T size locked) :
    (tvlogLock T size locked).curWrtSet ≠ none := by
  obtain ⟨s, es, os, hs⟩ := h
  obtain ⟨T', hd, b, hT, -, -, -, os', -, k, ho, -⟩ := tvlogAppendBegin_spec hs hacc hfit
  rw [tvlogLock, hT]
  cases locked with
  | false => simp [ho.cur]
  | true => simp [tvlogAppendEnd, tvlogPut, ho.cur]

theorem curWrtSet_reclaimX {B ckptSClk : ℕ} {T T' : Tvlog} {mode : TvlogMode} {env : Env}
    {sizes : List (ℕ × ℕ)} (h : tvlogReclaimX B T mode env ckptSClk = some (T', sizes)) :
    T'.curWrtSet = T.curWrtSet := by
  rw [tvlogReclaimX] at h
  simp only [Option.bind_eq_bind, Option.bind_eq_some_iff] at h
  obtain ⟨x, -, y, -, hxy⟩ := h
  rw [Option.some_inj, Prod.mk.injEq] at hxy
  rw [← hxy.1]

theorem tvInv_step {B : ℕ} {s s' : State} {i : Op} (h : TvInv s) (hok : LocksFit s i)
    (hs : step B s i = some s') : TvInv s' := by
  obtain ⟨-, heff⟩ := step_effect hs
  cases i with
  | begin =>
    obtain ⟨-, rfl⟩ := heff
    exact ⟨h.tvlog, h.detected⟩
  | lock size locked =>
    obtain ⟨hacc, rfl⟩ := heff
    exact ⟨tvlogInv_lock h.tvlog hacc hok, fun _ => curWrtSet_lock h.tvlog hacc hok⟩
  | endTx wrtClk opdSize lastCkpt freed =>
    obtain ⟨hclk, -, ⟨hdet, hc⟩ | ⟨-, rfl⟩⟩ := heff
    · obtain ⟨T, hT, hcase⟩ := commit_cases hc
      obtain ⟨T', hT', hinv⟩ := tvlogInv_commit freed h.tvlog (h.detected hdet) hclk.ne
      rw [hT, Option.some_inj] at hT'
      subst hT'
      rcases hcase with ⟨-, rfl⟩ | ⟨-, L, -, rfl⟩
      · exact ⟨h.tvlog, h.detected⟩
      · exact ⟨hinv, fun hf => absurd hf (by simp)⟩
    · exact ⟨h.tvlog, h.detected⟩
  | abort lastCkpt =>
    obtain ⟨L, -, rfl⟩ := heff
    refine ⟨tvlogInv_abort h.tvlog, fun hf => ?_⟩
    -- a detected write has an open write set, and then the abort clears the flag
    cases hc : s.tvlog.curWrtSet with
    | none =>
      simp only [hc, Option.isNone_none, Bool.and_true] at hf
      exact absurd hc (h.detected hf)
    | some i => simp [hc] at hf
  | tvlogReclaim mode env ckptSClk =>
    obtain ⟨T, sizes, hT, rfl⟩ := heff
    obtain ⟨T', sizes', hT', hinv, -⟩ := tvlogInv_reclaimX B mode env ckptSClk h.tvlog
    rw [hT, Option.some_inj, Prod.mk.injEq] at hT'
    obtain ⟨rfl, rfl⟩ := hT'
    refine ⟨hinv, fun hd => ?_⟩
    rw [curWrtSet_reclaimX hT]
    exact h.detected hd
  | ckptlogReclaim stop =>
    obtain ⟨L, -, rfl⟩ := heff
    exact ⟨h.tvlog, h.detected⟩
  | oplogReclaim lastCkpt =>
    obtain ⟨L, -, rfl⟩ := heff
    exact ⟨h.tvlog, h.detected⟩

/-! ### The non-volatile logs -/

/-- A non-volatile log of `n` bytes that decodes. -/
def NvInv (n : ℕ) (L : Nvlog Unit) : Prop := L.logSize = n ∧ ∃ es, NvShape L es

theorem nvInv_create {n : ℕ} : NvInv n (nvlogCreate n) :=
  ⟨rfl, [], rfl, by simp, Nat.le_add_left _ _⟩

/-- A filler is not longer than the entry that needs it. -/
theorem nvlogBogusSize_le {L : Nvlog Unit} {n : ℕ} (h0 : 0 < n) (hlt : n < L.logSize)
    (hw : nvlogWraps L n) : nvlogBogusSize L ≤ n := by
  rw [nvlogWraps, nvlogIndex, nvlogIndex, Ring.index_lt_iff h0 hlt] at hw
  rw [nvlogBogusSize, nvlogIndex]
  omega

/-- An enqueue succeeds when the log has room for the entry and a filler. -/
theorem enq_spec {n : ℕ} {L : Nvlog Unit} {objSize : ℕ} (w : ℕ) (h : NvInv n L)
    (h0 : 0 < nvlogEntrySize objSize) (hlt : nvlogEntrySize objSize < n)
    (hroom : nvlogUsed L + 2 * nvlogEntrySize objSize ≤ n) :
    ∃ L', enq L w objSize = (L', true) ∧ NvInv n L' ∧
      nvlogUsed L' ≤ nvlogUsed L + 2 * nvlogEntrySize objSize := by
  obtain ⟨rfl, es, hs⟩ := h
  have hle := hs.walk.le
  have hfill : nvlogWraps L (nvlogEntrySize objSize) →
      L.tailCnt + nvlogBogusSize L ≤ L.headCnt + L.logSize := by
    intro hw
    have := nvlogBogusSize_le h0 hlt hw
    rw [nvlogUsed] at hroom
    omega
  obtain ⟨hh, -, hsz⟩ := nvlogMakeRoom_frame L (nvlogEntrySize objSize)
  have ht : (nvlogMakeRoom L (nvlogEntrySize objSize)).tailCnt ≤
      L.tailCnt + nvlogEntrySize objSize := by
    rw [nvlogMakeRoom]
    split
    · rename_i hw
      have := nvlogBogusSize_le h0 hlt hw
      show L.tailCnt + nvlogBogusSize L ≤ _
      omega
    · omega
  have hsome : nvlogEnq L objSize =
      (nvlogReserve (nvlogMakeRoom L (nvlogEntrySize objSize)) (nvlogEntrySize objSize),
        some (nvlogMakeRoom L (nvlogEntrySize objSize)).tailCnt) := by
    rw [nvlogUsed] at hroom
    rw [nvlogEnq, if_neg (by omega)]
    simp only
    rw [if_neg (by omega)]
  obtain ⟨e1, -, e3, e4, e5⟩ := nvlogEnq_spec (w := w) (o := ()) hs.walk h0 hlt hfill hsome
  refine ⟨_, by rw [enq, hsome], ⟨e3, _, by rw [e1]; exact e5, ?_, by rw [e1, e3]; exact e4⟩, ?_⟩
  · intro p hp hb
    rw [e3]
    rcases List.mem_append.mp hp with hp | hp
    · rcases List.mem_append.mp hp with hp | hp
      · exact hs.bogus p hp hb
      · exact (bogusOk_filler hlt hp).1 hb
    · rw [List.mem_singleton] at hp
      subst hp
      cases hb
  · rw [nvlogUsed, nvlogUsed, e1]
    show (nvlogMakeRoom L _).tailCnt + nvlogEntrySize objSize - _ ≤ _
    omega

/-- Changing the counters of the store changes no entry. -/
theorem NvInv.persist {n : ℕ} {L L' : Nvlog Unit} (h : NvInv n L) (hh : L'.headCnt = L.headCnt)
    (ht : L'.tailCnt = L.tailCnt) (hs : L'.logSize = L.logSize) (hb : L'.buffer = L.buffer) :
    NvInv n L' := by
  obtain ⟨hn, es, h1, h2, h3⟩ := h
  refine ⟨hs.trans hn, es, ?_, fun p hp => ?_, ?_⟩
  · rw [Walk, hh, ht, hs, hb]
    exact h1
  · rw [BogusOk, hs]
    exact h2 p hp
  · rw [hh, ht, hs]
    exact h3

theorem NvInv.enqPersist {n : ℕ} {L : Nvlog Unit} (h : NvInv n L) :
    NvInv n (nvlogEnqPersist L) := by
  refine h.persist ?_ ?_ ?_ ?_ <;> (rw [nvlogEnqPersist]; split <;> rfl)

/-- Draining a log returns and does not lengthen it. -/
theorem NvInv.drain {n : ℕ} {L : Nvlog Unit} (h : NvInv n L)
    (go : Nvlog Unit → NvlogEntry Unit → Bool) :
    ∃ d, nvlogDrain go (nvlogUsed L + 1) L = some (L.withHead d) ∧ L.headCnt ≤ d ∧
      NvInv n (L.withHead d) := by
  obtain ⟨hn, es, hs⟩ := h
  have hlen := hs.walk.length_le
  obtain ⟨d, es', h1, h2, h3, -⟩ := nvlogDrain_spec go (nvlogUsed L + 1) L es hs
    (by rw [nvlogUsed]; omega)
  exact ⟨d, h1, h2, hn, es', h3⟩

theorem NvInv.oplogReclaim {n : ℕ} {L : Nvlog Unit} (h : NvInv n L) (B lastCkpt : ℕ) :
    ∃ L', oplogReclaim B L lastCkpt = some L' ∧ NvInv n L' := by
  obtain ⟨d, h1, -, h3⟩ := h.drain fun _ e => decide (ltClock B e.wrtClk lastCkpt)
  rw [ThreadLogs.oplogReclaim, h1]
  refine ⟨_, rfl, ?_⟩
  split
  · exact h3
  · exact h3.persist rfl rfl rfl rfl

theorem NvInv.ckptlogReclaim {n : ℕ} {L : Nvlog Unit} (h : NvInv n L) (stop : ℕ → Bool) :
    ∃ L', ckptlogReclaim L stop = some L' ∧ NvInv n L' := by
  obtain ⟨d, h1, -, h3⟩ := h.drain fun L _ => decide (L.headCnt ≠ L.prevHeadCnt)
  obtain ⟨d', h1', -, -⟩ := h3.drain fun L _ => !stop L.headCnt
  rw [ThreadLogs.ckptlogReclaim, h1]
  simp only [Option.bind_eq_bind, Option.bind_some]
  rw [h1']
  refine ⟨_, rfl, ?_⟩
  -- the head is back where the first loop left it
  split
  · exact h3.persist rfl rfl rfl rfl
  · exact h3.persist rfl rfl rfl rfl

/-- A checkpoint entry is not longer than the entry of its copy. -/
theorem ckptEntrySize_le {n : ℕ} (h : n < tvlogSize) :
    0 < nvlogEntrySize (Ckptlog.ckptEnqSize n) ∧
      nvlogEntrySize (Ckptlog.ckptEnqSize n) ≤ tvlogEntrySize n := by
  have hn : n < 2 ^ 20 := h
  rw [tvlogEntrySize_eq h]
  simp only [nvlogEntrySize, Ckptlog.ckptEnqSize, uint, sizeofCkptEntryHdr, sizeofObjHdr,
    sizeofNvlogEntryHdr]
  rw [Nat.mod_eq_of_lt (by omega), Nat.mod_eq_of_lt (by omega),
    alignUintToCacheline_eq (by omega)]
  omega

/-- All enqueues of one reclamation succeed when the log has twice the room. -/
theorem ckptlogEnqAll_spec {sizes : List (ℕ × ℕ)} :
    ∀ {L : Nvlog Unit} {m : ℕ}, NvInv ckptlogSize L → EnqOk m sizes → m ≤ tvlogSize →
      nvlogUsed L + 2 * m ≤ ckptlogSize →
      ∃ L', ckptlogEnqAll L sizes = (L', true) ∧ NvInv ckptlogSize L' := by
  induction sizes with
  | nil =>
    intro L m hL _ _ _
    exact ⟨_, rfl, hL.enqPersist⟩
  | cons q sizes ih =>
    intro L m hL hok hm hroom
    obtain ⟨w, objSize⟩ := q
    have hb := hok.bytes
    rw [enqBytes, List.map_cons, List.sum_cons, ← enqBytes] at hb
    obtain ⟨h0, hle⟩ := ckptEntrySize_le (hok.size (w, objSize) List.mem_cons_self)
    have hsize : tvlogSize < ckptlogSize := by decide
    simp only at hb hle h0
    obtain ⟨L', h1, h2, h3⟩ := enq_spec w hL h0 (by omega) (by omega)
    rw [ckptlogEnqAll, h1]
    exact ih h2 (m := m - tvlogEntrySize objSize)
      ⟨by omega, fun r hr => hok.size r (List.mem_cons_of_mem _ hr)⟩ (by omega) (by omega)

/-- The invariant of the three logs. -/
structure SpaceInv (s : State) : Prop extends TvInv s where
  oplog : NvInv oplogSize s.oplog
  ckptlog : NvInv ckptlogSize s.ckptlog
  fits : s.overflow = false

/-- The longest entry of an operational log: 320 bytes. -/
theorem oplogEntrySize_le {n : ℕ} (h : n ≤ maxOperandSize) :
    0 < nvlogEntrySize (uint (sizeofOpEntryHdr + n)) ∧
      nvlogEntrySize (uint (sizeofOpEntryHdr + n)) ≤ 320 := by
  have hn : n ≤ 240 := h
  simp only [nvlogEntrySize, uint, sizeofOpEntryHdr, sizeofNvlogEntryHdr]
  rw [Nat.mod_eq_of_lt (by omega), Nat.mod_eq_of_lt (by omega),
    alignUintToCacheline_eq (by omega)]
  omega

/-- The condition on the calls of a run: locks fit, at a commit the operational log
has room for its longest entry and a filler, and at a reclamation the checkpoint
log has room for twice the transient version log. -/
def HasSpace (s : State) : Op → Prop
  | .lock size locked => LockFits s.tvlog size locked
  | .endTx _ _ _ _ => nvlogUsed s.oplog + 640 ≤ oplogSize
  | .tvlogReclaim _ _ _ => nvlogUsed s.ckptlog + 2 * tvlogUsed s.tvlog ≤ ckptlogSize
  | _ => True

instance (s : State) : ∀ i, Decidable (HasSpace s i)
  | .lock size locked => inferInstanceAs (Decidable (LockFits s.tvlog size locked))
  | .endTx _ _ _ _ | .tvlogReclaim _ _ _ => inferInstanceAs (Decidable (_ ≤ _))
  | .begin | .abort _ | .ckptlogReclaim _ | .oplogReclaim _ =>
    inferInstanceAs (Decidable True)

theorem locksFit_of_hasSpace {s : State} {i : Op} (h : HasSpace s i) : LocksFit s i := by
  cases i <;> first | exact h | trivial

theorem TvInv.used_le {s : State} (h : TvInv s) : tvlogUsed s.tvlog ≤ tvlogSize := by
  obtain ⟨x, es, os, hs⟩ := h.tvlog
  have := hs.cap
  rw [tvlogUsed]
  omega

theorem spaceInv_step {B : ℕ} {s s' : State} {i : Op} (h : SpaceInv s) (hok : HasSpace s i)
    (hs : step B s i = some s') : SpaceInv s' := by
  have htv := tvInv_step h.toTvInv (locksFit_of_hasSpace hok) hs
  obtain ⟨-, heff⟩ := step_effect hs
  cases i with
  | begin =>
    obtain ⟨-, rfl⟩ := heff
    exact ⟨htv, h.oplog, h.ckptlog, h.fits⟩
  | lock size locked =>
    obtain ⟨-, rfl⟩ := heff
    exact ⟨htv, h.oplog, h.ckptlog, h.fits⟩
  | endTx wrtClk opdSize lastCkpt freed =>
    obtain ⟨-, hopd, ⟨-, hc⟩ | ⟨-, rfl⟩⟩ := heff
    · obtain ⟨h0, hle⟩ := oplogEntrySize_le hopd
      have hsize : (640 : ℕ) < oplogSize := by decide
      have hroom : nvlogUsed s.oplog + 640 ≤ oplogSize := hok
      obtain ⟨L, h1, h2, -⟩ := enq_spec wrtClk h.oplog h0 (by omega) (by omega)
      rw [← oplogEnq] at h1
      obtain ⟨T, -, hcase⟩ := commit_cases hc
      rw [h1] at hcase
      rcases hcase with ⟨hf, -⟩ | ⟨-, L', hL', rfl⟩
      · cases hf
      · refine ⟨htv, ?_, h.ckptlog, h.fits⟩
        rw [oplogReclaimIfNeeded] at hL'
        split at hL'
        · obtain ⟨L'', h3, h4⟩ := h2.enqPersist.oplogReclaim B lastCkpt
          rw [h3, Option.some_inj] at hL'
          exact hL' ▸ h4
        · rw [Option.some_inj] at hL'
          exact hL' ▸ h2.enqPersist
    · exact ⟨htv, h.oplog, h.ckptlog, h.fits⟩
  | abort lastCkpt =>
    obtain ⟨L, hL, rfl⟩ := heff
    obtain ⟨L', h1, h2⟩ := h.oplog.oplogReclaim B lastCkpt
    rw [hL, Option.some_inj] at h1
    exact ⟨htv, h1 ▸ h2, h.ckptlog, h.fits⟩
  | tvlogReclaim mode env ckptSClk =>
    obtain ⟨T, sizes, hT, rfl⟩ := heff
    obtain ⟨T', sizes', hT', -, henq⟩ := tvlogInv_reclaimX B mode env ckptSClk h.tvlog
    rw [hT, Option.some_inj, Prod.mk.injEq] at hT'
    obtain ⟨rfl, rfl⟩ := hT'
    obtain ⟨L, h1, h2⟩ := ckptlogEnqAll_spec h.ckptlog henq h.toTvInv.used_le hok
    refine ⟨htv, h.oplog, ?_, ?_⟩
    · simp only [h1]
      exact h2
    · simp only [h1, Bool.not_true]
  | ckptlogReclaim stop =>
    obtain ⟨L, hL, rfl⟩ := heff
    obtain ⟨L', h1, h2⟩ := h.ckptlog.ckptlogReclaim stop
    rw [hL, Option.some_inj] at h1
    exact ⟨htv, h.oplog, h1 ▸ h2, h.fits⟩
  | oplogReclaim lastCkpt =>
    obtain ⟨L, hL, rfl⟩ := heff
    obtain ⟨L', h1, h2⟩ := h.oplog.oplogReclaim B lastCkpt
    rw [hL, Option.some_inj] at h1
    exact ⟨htv, h1 ▸ h2, h.ckptlog, h.fits⟩

/-- When the calls of a run have space, no `nvlog_enq` returns `NULL`, and every
reclamation of a non-volatile log returns. -/
theorem nvlogs_never_overflow (B : ℕ) {s : State}
    (h : Run.Reach (· = initial) (step B) HasSpace s) :
    s.overflow = false ∧
      (∀ wrtClk opdSize, opdSize ≤ maxOperandSize → nvlogUsed s.oplog + 640 ≤ oplogSize →
        (oplogEnq s.oplog wrtClk opdSize).2 = true) ∧
      (∀ mode env ckptSClk, nvlogUsed s.ckptlog + 2 * tvlogUsed s.tvlog ≤ ckptlogSize →
        ∃ T sizes, tvlogReclaimX B s.tvlog mode env ckptSClk = some (T, sizes) ∧
          (ckptlogEnqAll s.ckptlog sizes).2 = true) ∧
      (∀ stop, ∃ L, ckptlogReclaim s.ckptlog stop = some L) ∧
      ∀ lastCkpt, ∃ L, oplogReclaim B s.oplog lastCkpt = some L := by
  have hi : SpaceInv s := by
    refine h.invariant ?_ fun s i s' => spaceInv_step
    rintro s rfl
    exact ⟨⟨tvlogInv_create, fun hf => absurd hf (by simp [initial])⟩, nvInv_create,
      nvInv_create, rfl⟩
  refine ⟨hi.fits, ?_, ?_, ?_, ?_⟩
  · intro wrtClk opdSize hopd hroom
    obtain ⟨h0, hle⟩ := oplogEntrySize_le hopd
    have hsize : (640 : ℕ) < oplogSize := by decide
    obtain ⟨L, h1, -⟩ := enq_spec wrtClk hi.oplog h0 (by omega) (by omega)
    rw [oplogEnq, h1]
  · intro mode env ckptSClk hroom
    obtain ⟨T, sizes, hT, -, henq⟩ := tvlogInv_reclaimX B mode env ckptSClk hi.tvlog
    obtain ⟨L, h1, -⟩ := ckptlogEnqAll_spec hi.ckptlog henq hi.toTvInv.used_le hroom
    exact ⟨T, sizes, hT, by rw [h1]⟩
  · intro stop
    obtain ⟨L, h1, -⟩ := hi.ckptlog.ckptlogReclaim stop
    exact ⟨L, h1⟩
  · intro lastCkpt
    obtain ⟨L, h1, -⟩ := hi.oplog.oplogReclaim B lastCkpt
    exact ⟨L, h1⟩

/-- A transaction that writes a new object of a million bytes. -/
def bigTx (wrtClk : ℕ) : List Op :=
  [.begin, .lock 1000000 true, .endTx wrtClk 0 0 fun _ => false]

/-- A checkpoint round.  The first one after a transaction checkpoints its copy, the
second one reclaims it from the transient version log. -/
def ckptRound (ckptSClk : ℕ) : Op :=
  .tvlogReclaim .ckpt ⟨fun _ => false, fun _ => true, fun _ => false⟩ ckptSClk

/-- Two such transactions, each checkpointed. -/
theorem nvlogs_never_overflow_two :
    ∃ s, Run.Reach (· = initial) (step 0) HasSpace s ∧ s.ckptlog.tailCnt = 2000128 ∧
      s.overflow = false := by
  have hd : ((Run.exec (step 0) HasSpace initial
      (bigTx 10 ++ [ckptRound 20, ckptRound 30] ++ bigTx 40 ++ [ckptRound 50])).map fun s =>
        s.ckptlog.tailCnt) = some 2000128 := by
    decide +kernel
  rw [Option.map_eq_some_iff] at hd
  obtain ⟨s, hs, ht⟩ := hd
  have hr : Run.Reach (· = initial) (step 0) HasSpace s := .of_exec (.init rfl) hs
  exact ⟨s, hr, ht, (nvlogs_never_overflow 0 hr).1⟩

/-- Five transactions.  After the third the checkpoint log is above its low mark and
gets a best-effort request, which finds only current masters; after the fourth it
is above its high mark and gets a writeback request, which writes back two entries
that the next reclamation would drop.  The fifth checkpoint comes before that. -/
def overflowRun : List Op :=
  bigTx 10 ++ [ckptRound 20, ckptRound 30] ++ bigTx 40 ++ [ckptRound 50, ckptRound 60] ++
    bigTx 70 ++ [ckptRound 80, ckptRound 90, .ckptlogReclaim fun _ => true] ++
    bigTx 100 ++ [ckptRound 110, ckptRound 120,
      .ckptlogReclaim fun cnt => decide (2000128 ≤ cnt)] ++
    bigTx 130 ++ [ckptRound 140]

/-- The last checkpoint of the run finds its log full. -/
theorem ckptlog_overflows :
    ∃ s, Run.Reach (· = initial) (step 0) Run.any s ∧ s.overflow = true := by
  have hd : ((Run.exec (step 0) Run.any initial overflowRun).map fun s =>
      s.overflow) = some true := by
    decide +kernel
  rw [Option.map_eq_some_iff] at hd
  obtain ⟨s, hs, ht⟩ := hd
  exact ⟨s, .of_exec (.init rfl) hs, ht⟩

end TimeStone.ThreadLogs
