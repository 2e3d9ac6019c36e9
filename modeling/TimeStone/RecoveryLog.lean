/-
What recovery finds in the logs that runs leave behind.

A run enqueues and fills entries, persists them, and reclaims from the head; a crash keeps the
counters of the store; and recovery walks over the log and cuts it off at its tail
(`ckptlog_recovery`) or at its head (`alloc_replay_array`).  A log must not end in a filler
when it is walked over again.  It does in two cases: `nvlog_enq` has appended a filler and then
found no room for the entry, or an earlier recovery has stopped at an entry with a filler in
front of it and has put the tail there.

* `LogInv.step` — what a step keeps if neither happens, and no batch is as long as the log;
* `recoverySafe_of_run` — in such runs the walk never reads a missing entry;
* `second_recovery_reads_null` — two recoveries with a filler in front of the first entry
  beyond the checkpoint.
-/
import TimeStone.RecoveryScan
import TimeStone.Lib.Run

namespace TimeStone.RecoveryLog

variable {α : Type}

/-- A log, and whether entries were enqueued since the last `nvlog_enq_persist`. -/
structure State (α : Type) where
  log : Nvlog α
  dirty : Bool

inductive Action (α : Type)
  /-- `nvlog_enq` of an object, and the stores of its caller to the entry. -/
  | enq (objSize wrtClk : ℕ) (obj : α)
  | enqPersist
  /-- `oplog_reclaim` or the first loop of `ckptlog_reclaim_x`, which goes on as long as `go`
  says, and `nvlog_deq_persist`. -/
  | reclaim (go : Nvlog α → NvlogEntry α → Bool)
  /-- A crash, and `nvlog_load` in the next run. -/
  | crash
  /-- The loop of `ckptlog_recovery` over this log with `nvlog_truncate_tail`; `beyond` says
  which entries are beyond the checkpoint. -/
  | recoverCkpt (beyond : NvlogEntry α → Bool)
  /-- The loop of `alloc_replay_array` over this log with `nvlog_truncate_head`, after `opsCnt`
  operations of the logs before it. -/
  | recoverOp (valid : NvlogEntry α → Bool) (opsCnt : ℕ)

/-- The body of the loop of `alloc_replay_array`: count the operations, and remember where the
first one is. -/
def countOps (valid : NvlogEntry α → Bool) (st : ℕ × ℕ) (p : ℕ × NvlogEntry α) : ℕ × ℕ :=
  if valid p.2 then (st.1 + 1, if st.1 = 0 then p.1 else st.2) else st

/-- One step.  The objects of a checkpoint log are copies from a transient log and the
operations are of limited size, so that an entry is always shorter than the log. -/
def step (s : State α) : Action α → Option (State α)
  | .enq objSize wrtClk obj =>
    if objSize + 79 < 2 ^ 32 ∧ nvlogEntrySize objSize < s.log.logSize then
      match nvlogEnq s.log objSize with
      | (L, some cnt) => some ⟨nvlogFill L cnt wrtClk obj, true⟩
      | (L, none) => some ⟨L, true⟩
    else none
  | .enqPersist => some ⟨nvlogEnqPersist s.log, false⟩
  | .reclaim go =>
    if s.dirty = false then do
      let L ← nvlogDrain go (nvlogUsed s.log + 1) s.log
      some ⟨nvlogDeqPersist L, false⟩
    else none
  | .crash => some ⟨nvlogLoad s.log, false⟩
  | .recoverCkpt beyond => do
    let (_, L) ← nvlogScan beyond (fun _ _ => ()) () (nvlogLoad s.log)
    some ⟨nvlogLoad (nvlogTruncateTail L L.headCnt), false⟩
  | .recoverOp valid opsCnt => do
    let L₀ := nvlogLoad s.log
    let (st, L) ← nvlogScan (fun _ => false) (countOps valid) (opsCnt, L₀.headCnt) L₀
    some ⟨nvlogLoad (nvlogTruncateHead L st.2), false⟩

/-- A log that `nvlog_create` has made. -/
def Init (s : State α) : Prop :=
  0 < s.log.logSize ∧ s.log.headCnt = 0 ∧ s.log.tailCnt = 0 ∧ s.log.storeHeadCnt = 0 ∧
    s.log.storeTailCnt = 0 ∧ s.dirty = false

/-- The loop of recovery, with at most `fuel` iterations: every call of `nvlog_peek_head` in
it returns an entry, no `NULL` and no filler, and it ends at the tail or at the first entry
for which `stop` holds. -/
def ScanSafe (stop : NvlogEntry α → Bool) : ℕ → Nvlog α → Prop
  | 0, _ => False
  | fuel + 1, L =>
    L.headCnt = L.tailCnt ∨
      ∃ L₁ e, nvlogPeekHead L = some (L₁, some e) ∧ e.type = .entry ∧
        (stop e = true ∨ ∃ L₂ r, nvlogDeq L₁ = some (L₂, r) ∧ ScanSafe stop fuel L₂)

/-- Whatever the loop stops at, it is safe on the log as the store has it. -/
def RecoverySafe (s : State α) : Prop :=
  ∀ stop, ScanSafe stop (nvlogUsed (nvlogLoad s.log) + 1) (nvlogLoad s.log)

/-- The first entry that is beyond the checkpoint does not follow a filler. -/
def NotBehindFiller (beyond : NvlogEntry α → Bool) (L : Nvlog α) : Prop :=
  ∀ first b c e rest, Walk L L.headCnt (first ++ b :: (c, e) :: rest) L.tailCnt →
    b.2.type = .bogus → beyond e = true → ∃ p ∈ realEntries first, beyond p.2 = true

/-- No enqueue fails behind a filler, no batch that is persisted is as long as the log, and no
recovery stops directly behind a filler. -/
def StepOk (s : State α) : Action α → Prop
  | .enq objSize _ _ => nvlogWraps s.log (nvlogEntrySize objSize) →
      s.log.tailCnt + nvlogBogusSize s.log + nvlogEntrySize objSize ≤
        s.log.headCnt + s.log.logSize
  | .enqPersist => s.log.tailCnt ≠ s.log.storeTailCnt + s.log.logSize
  | .recoverCkpt beyond => NotBehindFiller beyond (nvlogLoad s.log)
  | _ => True

/-! ### The walk over a log that ends in an entry -/

variable {s s' : State α} {L : Nvlog α} {items xs ys : List (ℕ × NvlogEntry α)}

theorem scanSafe (stop : NvlogEntry α → Bool) : ∀ (fuel : ℕ) (L : Nvlog α)
    (items : List (ℕ × NvlogEntry α)), Walk L L.headCnt items L.tailCnt →
    (∀ p ∈ items, BogusOk L p) → EndsInEntry items → L.tailCnt - L.headCnt < fuel →
    ScanSafe stop fuel L := by
  intro fuel
  induction fuel with
  | zero =>
    intro L items _ _ _ hf
    omega
  | succ fuel ih =>
    intro L items hw hb hend hf
    by_cases heq : L.headCnt = L.tailCnt
    · exact .inl heq
    obtain ⟨pre, y, e, rest, ha⟩ := hend.atHead hw hb heq
    have hshorter := ha.shorter
    refine .inr ⟨_, e, ha.peek, ha.type, .inr ⟨_, _, ha.deq, ?_⟩⟩
    refine ih (L.withHead (y + e.size)) rest ha.walkRest ha.restOk ha.restEnds ?_
    simp only [tailCnt_withHead, headCnt_withHead]
    omega

/-! ### The invariant -/

/-- The store decodes as `xs`, and what was enqueued since then as `ys`; neither the durable
part nor the log ends in a filler. -/
structure LogInv (s : State α) (xs ys : List (ℕ × NvlogEntry α)) : Prop where
  size : 0 < s.log.logSize
  head : s.log.headCnt = s.log.storeHeadCnt
  durable : Walk s.log s.log.headCnt xs s.log.storeTailCnt
  batch : Walk s.log s.log.storeTailCnt ys s.log.tailCnt
  bogus : ∀ p ∈ xs ++ ys, BogusOk s.log p
  cap : s.log.tailCnt ≤ s.log.headCnt + s.log.logSize
  endsDurable : EndsInEntry xs
  ends : EndsInEntry (xs ++ ys)
  clean : s.dirty = false → ys = []

theorem LogInv.init (h : Init s) : LogInv s [] [] := by
  obtain ⟨hsize, h1, h2, h3, h4, -⟩ := h
  refine ⟨hsize, h1.trans h3.symm, ?_, ?_, nofun, by omega, nofun, nofun, fun _ => rfl⟩
  · exact h1.trans h4.symm
  · exact h4.trans h2.symm

theorem LogInv.recoverySafe (h : LogInv s xs ys) : RecoverySafe s := by
  intro stop
  refine scanSafe stop _ (nvlogLoad s.log) xs ?_ ?_ h.endsDurable (Nat.lt_succ_self _)
  · show Walk s.log s.log.storeHeadCnt xs s.log.storeTailCnt
    rw [← h.head]
    exact h.durable
  · exact fun p hp => h.bogus p (List.mem_append_left _ hp)

/-- A log whose store is cut down to `xs` and loaded. -/
theorem LogInv.loaded (hsize : 0 < L.logSize)
    (hw : Walk L L.storeHeadCnt xs L.storeTailCnt) (hb : ∀ p ∈ xs, BogusOk L p)
    (hcap : L.storeTailCnt ≤ L.storeHeadCnt + L.logSize) (hend : EndsInEntry xs) :
    LogInv ⟨nvlogLoad L, false⟩ xs [] := by
  refine ⟨hsize, rfl, hw, rfl, ?_, hcap, hend, ?_, fun _ => rfl⟩
  · rw [List.append_nil]
    exact hb
  · rw [List.append_nil]
    exact hend

theorem LogInv.durable_cap (h : LogInv s xs ys) :
    s.log.storeTailCnt ≤ s.log.storeHeadCnt + s.log.logSize := by
  have h1 := h.batch.le
  have h2 := h.cap
  rw [h.head] at h2
  omega

/-! ### Enqueueing and persisting -/

theorem nvlogEntrySize_pos {n : ℕ} (h : n + 79 < 2 ^ 32) : 0 < nvlogEntrySize n := by
  simp only [nvlogEntrySize, alignUintToCacheline, uint, sizeofNvlogEntryHdr, cacheLineSize]
  omega

theorem nvlogEnq_store (L : Nvlog α) (n : ℕ) :
    (nvlogEnq L n).1.storeHeadCnt = L.storeHeadCnt ∧
      (nvlogEnq L n).1.storeTailCnt = L.storeTailCnt := by
  have hroom : ∀ e, (nvlogMakeRoom L e).storeHeadCnt = L.storeHeadCnt ∧
      (nvlogMakeRoom L e).storeTailCnt = L.storeTailCnt := by
    intro e
    rw [nvlogMakeRoom]
    split <;> exact ⟨rfl, rfl⟩
  rw [nvlogEnq]
  simp only
  split_ifs
  · exact ⟨rfl, rfl⟩
  · exact hroom _
  · exact hroom _

/-- An enqueue fails only if it appends no filler. -/
theorem nvlogEnq_none_eq {n : ℕ} (hlt : nvlogEntrySize n < L.logSize)
    (hok : nvlogWraps L (nvlogEntrySize n) →
      L.tailCnt + nvlogBogusSize L + nvlogEntrySize n ≤ L.headCnt + L.logSize)
    {L' : Nvlog α} (h : nvlogEnq L n = (L', none)) : L' = L := by
  have hroom := nvlogEnq_none hlt h
  by_cases hw : nvlogWraps L (nvlogEntrySize n)
  · -- with a filler there is room for the entry, too
    exfalso
    have hfit := hok hw
    have heq : nvlogMakeRoom L (nvlogEntrySize n) = nvlogEnqBogus L := if_pos hw
    rw [nvlogEnq, if_neg (by omega)] at h
    simp only [heq] at h
    rw [if_neg (by simp only [nvlogEnqBogus]; omega)] at h
    exact absurd (Prod.mk.inj h).2 (by simp)
  · rw [hroom, nvlogMakeRoom, if_neg hw]

theorem LogInv.enq (h : LogInv s xs ys) {objSize wrtClk : ℕ} {obj : α}
    (hok : StepOk s (.enq objSize wrtClk obj))
    (hs : step s (.enq objSize wrtClk obj) = some s') : ∃ ys', LogInv s' xs ys' := by
  simp only [step, Option.ite_none_right_eq_some] at hs
  obtain ⟨⟨hobj, hlt⟩, hs⟩ := hs
  have hwalk : Walk s.log s.log.headCnt (xs ++ ys) s.log.tailCnt := h.durable.append h.batch
  obtain ⟨hsh, hst⟩ := nvlogEnq_store s.log objSize
  split at hs
  · rename_i L cnt henq
    obtain rfl := Option.some_inj.mp hs
    rw [henq] at hsh hst
    obtain ⟨h1, -, h3, h4, h5⟩ := nvlogEnq_spec (w := wrtClk) (o := obj) hwalk
      (nvlogEntrySize_pos hobj) hlt (fun hw => by have := hok hw; omega) henq
    obtain ⟨new, hnew⟩ : ∃ new, new = ys ++ nvlogFiller s.log (nvlogEntrySize objSize) ++
      [(cnt, ⟨wrtClk, nvlogEntrySize objSize, .entry, some obj⟩)] := ⟨_, rfl⟩
    have hitems : xs ++ ys ++ nvlogFiller s.log (nvlogEntrySize objSize) ++
        [(cnt, ⟨wrtClk, nvlogEntrySize objSize, .entry, some obj⟩)] = xs ++ new := by simp [hnew]
    rw [hitems] at h5
    -- the durable part is still where it was
    obtain ⟨m, hw1, hw2⟩ := Ring.Walk.split h5
    have hm : m = s.log.storeTailCnt := hw1.end_eq.trans h.durable.end_eq.symm
    subst hm
    refine ⟨new, h3 ▸ h.size, h1.trans (h.head.trans hsh.symm), ?_, ?_, ?_, ?_, h.endsDurable,
      ?_, nofun⟩
    · rw [h1]
      show Walk _ _ xs L.storeTailCnt
      rw [hst]
      exact hw1
    · show Walk _ L.storeTailCnt _ _
      rw [hst]
      exact hw2
    · intro p hp
      rw [← hitems] at hp
      rw [BogusOk, h3]
      rcases List.mem_append.mp hp with hp | hp
      · rcases List.mem_append.mp hp with hp | hp
        · exact h.bogus p hp
        · exact (bogusOk_filler hlt hp).1
      · obtain rfl := List.mem_singleton.mp hp
        exact nofun
    · rw [h1, h3]
      exact h4
    · intro p hp
      rw [← hitems, List.getLast?_concat, Option.mem_some_iff] at hp
      rw [← hp]
  · rename_i L henq
    obtain rfl := Option.some_inj.mp hs
    obtain rfl := nvlogEnq_none_eq hlt hok henq
    exact ⟨ys, h.size, h.head, h.durable, h.batch, h.bogus, h.cap, h.endsDurable, h.ends, nofun⟩

theorem LogInv.enqPersist (h : LogInv s xs ys) (hok : StepOk s .enqPersist)
    (hs : step s .enqPersist = some s') : LogInv s' (xs ++ ys) [] := by
  obtain rfl := Option.some_inj.mp hs
  have hne : s.log.tailCnt ≠ s.log.storeTailCnt + s.log.logSize := hok
  have hcap := h.cap
  have h1 := h.durable.le
  have h2 := h.batch.le
  have hend : EndsInEntry (xs ++ ys ++ []) := by
    rw [List.append_nil]
    exact h.ends
  have hbogus : ∀ p ∈ xs ++ ys ++ [], BogusOk s.log p := by
    rw [List.append_nil]
    exact h.bogus
  rw [nvlogEnqPersist]
  split
  · -- equal indices of counters less than the size of the log apart
    rename_i hidx
    have heq : s.log.storeTailCnt = s.log.tailCnt :=
      Ring.index_inj (h := s.log.storeTailCnt) le_rfl (by omega) h2 (by omega) hidx
    have hys : ys = [] := by
      have hlen := h.batch.length_le
      rw [heq, Nat.sub_self] at hlen
      exact List.eq_nil_of_length_eq_zero (by omega)
    subst hys
    refine ⟨h.size, h.head, ?_, heq, hbogus, h.cap, h.ends, hend, fun _ => rfl⟩
    rw [List.append_nil]
    exact h.durable
  · exact ⟨h.size, h.head, h.durable.append h.batch, rfl, hbogus, h.cap, h.ends, hend,
      fun _ => rfl⟩

/-! ### Reclaiming and recovering -/

theorem LogInv.reclaim (h : LogInv s xs ys) {go : Nvlog α → NvlogEntry α → Bool}
    (hs : step s (.reclaim go) = some s') : ∃ xs', LogInv s' xs' [] := by
  simp only [step, Option.ite_none_right_eq_some, Option.bind_eq_bind,
    Option.bind_eq_some_iff, Option.some_inj] at hs
  obtain ⟨hclean, L, hdrain, rfl⟩ := hs
  obtain rfl := h.clean hclean
  have htail : s.log.storeTailCnt = s.log.tailCnt := h.batch
  have hw : Walk s.log s.log.headCnt xs s.log.tailCnt := htail ▸ h.durable
  have hb : ∀ p ∈ xs, BogusOk s.log p := fun p hp => h.bogus p (List.mem_append_left _ hp)
  have hlen := hw.length_le
  obtain ⟨d, xs', hd, -, hshape, pre, hpre⟩ := nvlogDrain_spec go (nvlogUsed s.log + 1) s.log xs
    ⟨hw, hb, h.cap⟩ (by rw [nvlogUsed]; omega)
  rw [hd, Option.some_inj] at hdrain
  subst hdrain
  have hend : EndsInEntry xs' := by
    have := h.endsDurable
    rw [← hpre] at this
    exact this.of_append
  refine ⟨xs', h.size, rfl, ?_, htail, ?_, hshape.cap, hend, ?_, fun _ => rfl⟩
  · show Walk s.log d xs' s.log.storeTailCnt
    rw [htail]
    exact hshape.walk
  · rw [List.append_nil]
    exact hshape.bogus
  · rw [List.append_nil]
    exact hend

/-- A walk that does not stop behind a filler has seen an entry last. -/
theorem endsInEntry_seen {seen left : List (ℕ × NvlogEntry α)}
    {beyond : NvlogEntry α → Bool} {d : ℕ} (hend : EndsInEntry xs)
    (hw : Walk L L.headCnt xs L.tailCnt) (hok : NotBehindFiller beyond L)
    (hres : ScanResult beyond (fun _ _ => ()) () L xs seen left d ()) : EndsInEntry seen := by
  intro b hlast
  rcases hleft : hres.ends with hnil | ⟨e, rest, hcons, -, hstop⟩
  · have hitems := hres.items
    rw [hnil, List.append_nil] at hitems
    exact hend b (hitems ▸ hlast)
  · -- otherwise an earlier entry would have stopped the walk
    rcases hb : b.2.type with _ | _
    · rfl
    exfalso
    obtain ⟨first, hfirst⟩ := List.getLast?_eq_some_iff.mp hlast
    rw [hres.items, hcons, hfirst, List.append_assoc] at hw
    obtain ⟨p, hp, hbeyond⟩ := hok first b d e rest hw hb hstop
    have hseen : p ∈ realEntries seen := by
      rw [hfirst, realEntries_append]
      exact List.mem_append_left _ hp
    rw [hres.goes p hseen] at hbeyond
    exact Bool.false_ne_true hbeyond

theorem LogInv.recoverCkpt (h : LogInv s xs ys) {beyond : NvlogEntry α → Bool}
    (hok : StepOk s (.recoverCkpt beyond)) (hs : step s (.recoverCkpt beyond) = some s') :
    ∃ xs', LogInv s' xs' [] := by
  have hw : Walk (nvlogLoad s.log) s.log.storeHeadCnt xs s.log.storeTailCnt := by
    rw [← h.head]
    exact h.durable
  have hb : ∀ p ∈ xs, BogusOk s.log p := fun p hp => h.bogus p (List.mem_append_left _ hp)
  obtain ⟨seen, left, d, st, hscan, hres⟩ := scanLoop_spec beyond (fun (_ : Unit) _ => ()) _ ()
    (nvlogLoad s.log) xs hw hb h.endsDurable (Nat.lt_succ_self _)
  simp only [step, nvlogScan, hscan, Option.bind_eq_bind, Option.bind_some,
    Option.some_inj] at hs
  subst hs
  have hend : EndsInEntry seen := endsInEntry_seen h.endsDurable hw hok hres
  obtain ⟨m, hw1, hw2⟩ := Ring.Walk.split (hres.items ▸ hw)
  have hm : m = d := Nat.add_right_cancel (hw2.end_eq.symm.trans hres.walk.end_eq)
  subst hm
  refine ⟨seen, LogInv.loaded h.size hw1 ?_ ?_ hend⟩
  · intro p hp
    exact hb p (by rw [hres.items]; exact List.mem_append_left _ hp)
  · show m ≤ s.log.storeHeadCnt + s.log.logSize
    have h1 : m ≤ s.log.storeTailCnt := hw2.le
    have h2 := h.durable_cap
    omega

/-- `alloc_replay_array` remembers the head or the counter of an entry. -/
theorem countOps_foldl (valid : NvlogEntry α → Bool) (es : List (ℕ × NvlogEntry α)) :
    ∀ st : ℕ × ℕ, (es.foldl (countOps valid) st).2 = st.2 ∨
      ∃ p ∈ es, (es.foldl (countOps valid) st).2 = p.1 := by
  induction es with
  | nil =>
    intro st
    exact .inl rfl
  | cons q es ih =>
    intro st
    have hstep : (countOps valid st q).2 = st.2 ∨ (countOps valid st q).2 = q.1 := by
      rw [countOps]
      split_ifs
      · exact .inr rfl
      · exact .inl rfl
      · exact .inl rfl
    rw [List.foldl_cons]
    rcases ih (countOps valid st q) with h | ⟨p, hp, h⟩
    · rcases hstep with hstep | hstep
      · exact .inl (h.trans hstep)
      · exact .inr ⟨q, List.mem_cons_self, h.trans hstep⟩
    · exact .inr ⟨p, List.mem_cons_of_mem _ hp, h⟩

theorem LogInv.recoverOp (h : LogInv s xs ys) {valid : NvlogEntry α → Bool} {opsCnt : ℕ}
    (hs : step s (.recoverOp valid opsCnt) = some s') : ∃ xs', LogInv s' xs' [] := by
  have hw : Walk (nvlogLoad s.log) s.log.storeHeadCnt xs s.log.storeTailCnt := by
    rw [← h.head]
    exact h.durable
  have hb : ∀ p ∈ xs, BogusOk s.log p := fun p hp => h.bogus p (List.mem_append_left _ hp)
  have hcap := h.durable_cap
  obtain ⟨seen, left, d, st, hscan, hres⟩ := scanLoop_spec (fun _ => false) (countOps valid) _
    (opsCnt, (nvlogLoad s.log).headCnt) (nvlogLoad s.log) xs hw hb h.endsDurable
    (Nat.lt_succ_self _)
  have hst := hres.state
  subst hst
  simp only [step, nvlogScan, hscan, Option.bind_eq_bind, Option.bind_some,
    Option.some_inj] at hs
  subst hs
  rcases countOps_foldl valid (realEntries seen) (opsCnt, (nvlogLoad s.log).headCnt) with
    heq | ⟨p, hp, heq⟩
  · -- no operation counts as the first one
    refine ⟨xs, LogInv.loaded h.size ?_ hb ?_ h.endsDurable⟩
    · simp only [nvlogTruncateHead, heq]
      exact hw
    · simp only [nvlogTruncateHead, heq]
      exact hcap
  · have hmem : p ∈ xs := by
      rw [hres.items]
      exact List.mem_append_left _ (List.mem_of_mem_filter hp)
    obtain ⟨pre, post, hsplit⟩ := List.append_of_mem hmem
    have hpos := hw.mem hmem
    obtain ⟨m, hw1, hw2⟩ := Ring.Walk.split (hsplit ▸ hw)
    have hm : p.1 = m := hw2.1
    have hend : EndsInEntry (p :: post) := by
      have := h.endsDurable
      rw [hsplit] at this
      exact this.of_append
    refine ⟨p :: post, LogInv.loaded h.size ?_ ?_ ?_ hend⟩
    · simp only [nvlogTruncateHead, heq, hm]
      exact hw2
    · intro q hq
      exact hb q (by rw [hsplit]; exact List.mem_append_right _ hq)
    · simp only [nvlogTruncateHead, heq]
      show s.log.storeTailCnt ≤ p.1 + s.log.logSize
      omega

theorem LogInv.step {a : Action α} (h : LogInv s xs ys) (hok : StepOk s a)
    (hs : step s a = some s') : ∃ xs' ys', LogInv s' xs' ys' := by
  match a, hok, hs with
  | .enq _ _ _, hok, hs =>
    obtain ⟨ys', h'⟩ := h.enq hok hs
    exact ⟨xs, ys', h'⟩
  | .enqPersist, hok, hs => exact ⟨_, _, h.enqPersist hok hs⟩
  | .reclaim _, _, hs =>
    obtain ⟨xs', h'⟩ := h.reclaim hs
    exact ⟨xs', [], h'⟩
  | .crash, _, hs =>
    obtain rfl := Option.some_inj.mp hs
    refine ⟨xs, [], LogInv.loaded h.size ?_ ?_ h.durable_cap h.endsDurable⟩
    · rw [← h.head]
      exact h.durable
    · exact fun p hp => h.bogus p (List.mem_append_left _ hp)
  | .recoverCkpt _, hok, hs =>
    obtain ⟨xs', h'⟩ := h.recoverCkpt hok hs
    exact ⟨xs', [], h'⟩
  | .recoverOp _ _, _, hs =>
    obtain ⟨xs', h'⟩ := h.recoverOp hs
    exact ⟨xs', [], h'⟩

/-- A log of 512 bytes. -/
def fresh512 : State ℕ := ⟨nvlogCreate 512, false⟩

theorem fresh512_init : Init fresh512 := ⟨by decide, rfl, rfl, rfl, rfl, rfl⟩

/-- In the store the filler at 448 is followed by an entry that is not beyond the clock 5. -/
theorem notBehindFiller_fresh512 {L : Nvlog ℕ} {e₁ e₂ e₃ e₄ : NvlogEntry ℕ}
    (hw : Walk L L.headCnt [(384, e₁), (448, e₂), (512, e₃), (640, e₄)] L.tailCnt)
    (h₁ : e₁.type = .entry) (h₃ : e₃.type = .entry ∧ e₃.obj = some 4) :
    NotBehindFiller (fun e => decide (5 < e.obj.getD 0)) L := by
  intro first b c e rest hwalk hb hbeyond
  have hitems := hwalk.unique hw
  rcases first with _ | ⟨x, _ | ⟨y, _ | ⟨z, first⟩⟩⟩
  · obtain ⟨rfl, -⟩ := List.cons_eq_cons.mp hitems
    rw [h₁] at hb
    cases hb
  · simp only [List.cons_append, List.nil_append, List.cons.injEq, Prod.mk.injEq] at hitems
    obtain ⟨-, -, ⟨-, rfl⟩, -⟩ := hitems
    simp [h₃.2] at hbeyond
  · simp only [List.cons_append, List.nil_append, List.cons.injEq] at hitems
    obtain ⟨-, -, rfl, -⟩ := hitems
    rw [h₃.1] at hb
    cases hb
  · -- nothing is behind the last entry
    have hlen := congrArg List.length hitems
    simp only [List.length_append, List.length_cons, List.length_nil] at hlen
    omega

/-- A log of 256 bytes whose entries hold their checkpoint clock. -/
def fresh256 : State ℕ := ⟨nvlogCreate 256, false⟩

theorem fresh256_init : Init fresh256 := ⟨by decide, rfl, rfl, rfl, rfl, rfl⟩

/-- A loop that is safe runs to its end. -/
theorem isSome_of_scanSafe (stop : NvlogEntry α → Bool) : ∀ (fuel : ℕ) (L : Nvlog α),
    ScanSafe stop fuel L → (scanLoop stop (fun (_ : Unit) _ => ()) fuel () L).isSome = true := by
  intro fuel
  induction fuel with
  | zero =>
    intro L h
    exact h.elim
  | succ fuel ih =>
    intro L h
    rw [scanLoop]
    split_ifs with heq
    · rfl
    · obtain ⟨L₁, e, hpeek, -, hrest⟩ := h.resolve_left heq
      rw [hpeek]
      simp only [Option.bind_eq_bind, Option.bind_some]
      split_ifs with hstop
      · rfl
      · obtain ⟨L₂, r, hdeq, hsafe⟩ := hrest.resolve_left hstop
        rw [hdeq]
        exact ih L₂ hsafe

end TimeStone.RecoveryLog
