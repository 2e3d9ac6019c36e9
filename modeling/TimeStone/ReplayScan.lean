/-
The two scans over the operational logs, with the arrays that they share (`recovery.c`).

`alloc_replay_array` counts the operations beyond the last checkpoint, moves the heads of the
logs in NVM and allocates the replay array and the context array; `collect_replay_entries`
loads the logs again and fills both arrays.  The first scan moves a head only while it has not
counted any operation, and only to the first operation that it counts.  The sizes of the arrays
are kept in an `int`, so that 44739243 operations are too many, and both loops use a null
pointer on a log that ends in a filler.

* `opsCnt_allocLogs`, `collectLogs_eq` — what the scans count and store, whatever the logs are;
* `exists_allocLogs`, `exists_collectLogs` — as long as the counter does not wrap, moving the
  heads leaves well-formed logs with all their operations, and the second scan stores these;
* `scansAgree_iff` — the scans agree exactly when no operational log ends in a filler and the
  records of all operations have less than `2 ^ 31` bytes.
-/
import TimeStone.RecoveryScan
import TimeStone.Recovery

namespace TimeStone.ReplayScan

open Recovery (NvlogType NvlogStatus ReplayType)

/-- What recovery reads of an operation behind its log header. -/
structure OpEntryHdr where
  localClk : ℕ

/-- A log in the list of the NVM root. -/
structure NvlogStore where
  type : NvlogType
  status : NvlogStatus
  log : Nvlog OpEntryHdr

/-- A well-formed log: the bytes between the counters of the store decode as `items`, and they
are not more than the log has. -/
structure PersistentLog extends NvlogStore where
  items : List (ℕ × NvlogEntry OpEntryHdr)
  walk : Walk log log.storeHeadCnt items log.storeTailCnt
  bogusOk : ∀ p ∈ items, BogusOk log p
  cap : log.storeTailCnt ≤ log.storeHeadCnt + log.logSize
  filled : ∀ p ∈ items, p.2.type = .entry → p.2.obj.isSome

/-- The logs that the scans do not skip. -/
def NvlogStore.IsOplog (s : NvlogStore) : Prop := s.type = .oplog ∧ s.status = .normal

instance (s : NvlogStore) : Decidable s.IsOplog := inferInstanceAs (Decidable (_ ∧ _))

/-- `oplog_hdr.local_clk`. -/
def opLocalClk (e : NvlogEntry OpEntryHdr) : ℕ := (e.obj.map OpEntryHdr.localClk).getD 0

/-- `is_op_entry_valid`. -/
def isOpEntryValid (lastCkptClk : ℕ) (e : NvlogEntry OpEntryHdr) : Bool :=
  decide (opLocalClk e > lastCkptClk)

/-! ### `alloc_replay_array` -/

/-- `sizeof(ts_replay_entry_t)`. -/
def sizeofReplayEntry : ℕ := 24

/-- `sizeof(ts_op_context_t)`. -/
def sizeofOpContext : ℕ := 16

/-- The body of the inner loop: `ops_cnt` and `head_cnt`. -/
def allocVisit (lastCkptClk : ℕ) (st : Int32 × ℕ) (p : ℕ × NvlogEntry OpEntryHdr) :
    Int32 × ℕ :=
  if isOpEntryValid lastCkptClk p.2 then (st.1 + 1, if st.1 = 0 then p.1 else st.2) else st

/-- The scan of one log, which moves its head. -/
def allocLog (lastCkptClk : ℕ) (opsCnt : Int32) (s : NvlogStore) :
    Option (Int32 × NvlogStore) :=
  if s.IsOplog then do
    let L := nvlogLoad s.log
    let (st, L') ← nvlogScan (fun _ => false) (allocVisit lastCkptClk) (opsCnt, L.headCnt) L
    some (st.1, { s with log := nvlogTruncateHead L' st.2 })
  else some (opsCnt, s)

/-- The scan of the list of logs. -/
def allocLogs (lastCkptClk : ℕ) : Int32 → List NvlogStore → Option (Int32 × List NvlogStore)
  | opsCnt, [] => some (opsCnt, [])
  | opsCnt, s :: ss => do
    let (n, s') ← allocLog lastCkptClk opsCnt s
    let (n', ss') ← allocLogs lastCkptClk n ss
    some (n', s' :: ss')

/-- `replay_size`: an `int`. -/
def replaySize (opsCnt : Int32) : Int32 := Int32.ofInt (sizeofReplayEntry * 2 * opsCnt.toInt)

/-- `context_size`. -/
def contextSize (opsCnt : Int32) : Int32 := Int32.ofInt (sizeofOpContext * opsCnt.toInt)

/-- `port_alloc` and the `memset` behind it: the bytes that there are.  A negative size is more
than there is of memory, and `memset` then gets a null pointer. -/
def portAlloc (size : Int32) : Option ℕ :=
  if size.toInt < 0 then none else some size.toInt.toNat

/-- What `alloc_replay_array` leaves: its counter, the bytes of both arrays, and the logs. -/
structure Alloc where
  opsCnt : Int32
  replayBytes : ℕ
  contextBytes : ℕ
  stores : List NvlogStore

/-- `alloc_replay_array`. -/
def allocReplayArray (lastCkptClk : ℕ) (stores : List NvlogStore) : Option Alloc := do
  let (opsCnt, stores') ← allocLogs lastCkptClk 0 stores
  let replayBytes ← portAlloc (replaySize opsCnt)
  let contextBytes ← portAlloc (contextSize opsCnt)
  some ⟨opsCnt, replayBytes, contextBytes, stores'⟩

/-! ### `collect_replay_entries` -/

/-- `ts_replay_entry_t`; `context` is an index of the context array. -/
structure ReplayEntry where
  timeStamp : ℕ
  type : ReplayType
  context : ℤ

/-- `ts_op_context_t`; an operation is addressed by its log and its counter. -/
structure OpContext where
  thread : Option ℕ
  opEntry : ℕ × ℕ

/-- The counter of the scan and its stores to both arrays, with their indices. -/
structure Collect where
  i : Int32
  replay : List (ℤ × ReplayEntry)
  contexts : List (ℤ × OpContext)

/-- `add_op_replay` at `&replay_array[i]` and `&context_array[i / 2]`. -/
def addOpReplay (c : Collect) (log : ℕ) (p : ℕ × NvlogEntry OpEntryHdr) : Collect :=
  let replay := c.i.toInt
  let context := (c.i / 2).toInt
  { c with
    contexts := c.contexts ++ [(context, ⟨none, (log, p.1)⟩)]
    replay := c.replay ++ [(replay, ⟨opLocalClk p.2, .exec, context⟩),
      (replay + 1, ⟨p.2.wrtClk, .commit, context⟩)] }

/-- `add_op_replay`, and `i += 2`. -/
def collectOp (c : Collect) (x : ℕ × ℕ × NvlogEntry OpEntryHdr) : Collect :=
  { addOpReplay c x.1 x.2 with i := c.i + 2 }

/-- The body of the inner loop, in the log number `log`. -/
def collectVisit (lastCkptClk log : ℕ) (c : Collect) (p : ℕ × NvlogEntry OpEntryHdr) :
    Collect :=
  if isOpEntryValid lastCkptClk p.2 then collectOp c (log, p) else c

/-- The scan of one log; `nvlog_truncate_head` gets the head that was loaded. -/
def collectLog (lastCkptClk log : ℕ) (c : Collect) (s : NvlogStore) :
    Option (Collect × NvlogStore) :=
  if s.IsOplog then do
    let L := nvlogLoad s.log
    let (c', L') ← nvlogScan (fun _ => false) (collectVisit lastCkptClk log) c L
    some (c', { s with log := nvlogTruncateHead L' L.headCnt })
  else some (c, s)

/-- The scan of the list of logs, from the log number `log` on. -/
def collectLogs (lastCkptClk : ℕ) : ℕ → Collect → List NvlogStore →
    Option (Collect × List NvlogStore)
  | _, c, [] => some (c, [])
  | log, c, s :: ss => do
    let (c', s') ← collectLog lastCkptClk log c s
    let (c'', ss') ← collectLogs lastCkptClk (log + 1) c' ss
    some (c'', s' :: ss')

/-- `collect_replay_entries`: its stores, `*ops_cnt`, and the logs. -/
def collectReplayEntries (lastCkptClk : ℕ) (stores : List NvlogStore) :
    Option (Collect × Int32 × List NvlogStore) := do
  let (c, stores') ← collectLogs lastCkptClk 0 ⟨0, [], []⟩ stores
  some (c, c.i / 2, stores')

/-! ### What the scans agree on -/

/-- The operations of a log that a scan accepts; `none` if it reads a null pointer. -/
def validOps (lastCkptClk : ℕ) (s : NvlogStore) : Option (List (ℕ × NvlogEntry OpEntryHdr)) :=
  if s.IsOplog then
    (nvlogEntries (nvlogLoad s.log)).map fun r => r.1.filter fun p => isOpEntryValid lastCkptClk p.2
  else some []

/-- The second scan writes every record of the arrays that the first one has allocated, and no
other; and the logs that it finds still have every valid operation. -/
structure Agree (lastCkptClk : ℕ) (stores : List NvlogStore) (a : Alloc) (c : Collect)
    (opsCnt : Int32) (stores' : List NvlogStore) : Prop where
  opsCnt : opsCnt = a.opsCnt
  replay : c.replay.map Prod.fst = (List.range (2 * a.opsCnt.toInt.toNat)).map Int.ofNat
  contexts : c.contexts.map Prod.fst = (List.range a.opsCnt.toInt.toNat).map Int.ofNat
  replayRoom : sizeofReplayEntry * c.replay.length ≤ a.replayBytes
  contextRoom : sizeofOpContext * c.contexts.length ≤ a.contextBytes
  alloc : a.stores.map (validOps lastCkptClk) = stores.map (validOps lastCkptClk)
  collect : stores'.map (validOps lastCkptClk) = stores.map (validOps lastCkptClk)

/-- Both scans return, and they agree. -/
def ScansAgree (lastCkptClk : ℕ) (stores : List NvlogStore) : Prop :=
  ∃ a c opsCnt stores', allocReplayArray lastCkptClk stores = some a ∧
    collectReplayEntries lastCkptClk a.stores = some (c, opsCnt, stores') ∧
    Agree lastCkptClk stores a c opsCnt stores'

variable {last log n : ℕ} {opsCnt opsCnt' : Int32} {s s' : NvlogStore}
  {stores stores' : List NvlogStore} {c c' : Collect}

/-! ### What the first scan counts -/

/-- The number of operations that a scan accepts. -/
def opCnt (last : ℕ) (s : NvlogStore) : ℕ := ((validOps last s).getD []).length

def opCnts (last : ℕ) (stores : List NvlogStore) : ℕ := (stores.map (opCnt last)).sum

theorem fst_foldl_allocVisit (es : List (ℕ × NvlogEntry OpEntryHdr)) : ∀ st : Int32 × ℕ,
    (es.foldl (allocVisit last) st).1 =
      st.1 + Int32.ofNat (es.filter fun p => isOpEntryValid last p.2).length := by
  induction es with
  | nil =>
    intro st
    exact (Int32.add_zero st.1).symm
  | cons p es ih =>
    intro st
    rw [List.foldl_cons, ih, allocVisit]
    split
    · rename_i hv
      have hcons : (p :: es).filter (fun q => isOpEntryValid last q.2) =
        p :: es.filter fun q => isOpEntryValid last q.2 := List.filter_cons_of_pos hv
      rw [hcons, List.length_cons, Nat.add_comm, Int32.ofNat_add, ← Int32.add_assoc]
      rfl
    · rename_i hv
      have hcons : (p :: es).filter (fun q => isOpEntryValid last q.2) =
        es.filter fun q => isOpEntryValid last q.2 := List.filter_cons_of_neg hv
      rw [hcons]

theorem opsCnt_allocLog (h : allocLog last opsCnt s = some (opsCnt', s')) :
    (validOps last s).isSome ∧ opsCnt' = opsCnt + Int32.ofNat (opCnt last s) := by
  rw [allocLog] at h
  rw [opCnt, validOps]
  split_ifs at h ⊢ with hs
  · dsimp only at h
    rw [nvlogScan_eq] at h
    cases hes : nvlogEntries (nvlogLoad s.log) with
    | none =>
      rw [hes] at h
      cases h
    | some r =>
      rw [hes] at h
      cases h
      exact ⟨rfl, fst_foldl_allocVisit r.1 _⟩
  · cases h
    exact ⟨rfl, (Int32.add_zero opsCnt).symm⟩

/-- The counter of the first scan is the number of valid operations of all logs, as an
`int`. -/
theorem opsCnt_allocLogs : ∀ {stores stores' : List NvlogStore} {opsCnt opsCnt' : Int32},
    allocLogs last opsCnt stores = some (opsCnt', stores') →
    (∀ s ∈ stores, (validOps last s).isSome) ∧
      opsCnt' = opsCnt + Int32.ofNat (opCnts last stores) := by
  intro stores
  induction stores with
  | nil =>
    intro stores' opsCnt opsCnt' h
    cases h
    exact ⟨nofun, (Int32.add_zero opsCnt).symm⟩
  | cons s stores ih =>
    intro stores' opsCnt opsCnt' h
    simp only [allocLogs, Option.bind_eq_bind, Option.bind_eq_some_iff, Prod.exists,
      Option.some_inj, Prod.mk.injEq] at h
    obtain ⟨n, s', hs, n', ss', hss, rfl, -⟩ := h
    obtain ⟨h1, rfl⟩ := opsCnt_allocLog hs
    obtain ⟨h2, rfl⟩ := ih hss
    refine ⟨List.forall_mem_cons.mpr ⟨h1, h2⟩, ?_⟩
    rw [opCnts, opCnts, List.map_cons, List.sum_cons, Int32.ofNat_add, Int32.add_assoc]

/-! ### What the second scan stores -/

theorem foldl_collectVisit (es : List (ℕ × NvlogEntry OpEntryHdr)) (c : Collect) :
    es.foldl (collectVisit last log) c =
      ((es.filter fun p => isOpEntryValid last p.2).map (Prod.mk log)).foldl collectOp c := by
  rw [List.foldl_map, List.foldl_filter]
  rfl

theorem collectLog_eq (h : collectLog last log c s = some (c', s')) :
    ∃ ops, validOps last s = some ops ∧ c' = (ops.map (Prod.mk log)).foldl collectOp c := by
  rw [collectLog] at h
  rw [validOps]
  split_ifs at h ⊢ with hs
  · dsimp only at h
    rw [nvlogScan_eq] at h
    cases hes : nvlogEntries (nvlogLoad s.log) with
    | none =>
      rw [hes] at h
      cases h
    | some r =>
      rw [hes] at h
      cases h
      exact ⟨_, rfl, foldl_collectVisit r.1 c⟩
  · cases h
    exact ⟨[], rfl, rfl⟩

/-- The second scan stores the records of as many operations as the logs have that it finds. -/
theorem collectLogs_eq : ∀ {stores stores' : List NvlogStore} {log : ℕ} {c c' : Collect},
    collectLogs last log c stores = some (c', stores') →
    ∃ ops : List (ℕ × ℕ × NvlogEntry OpEntryHdr), ops.length = opCnts last stores ∧
      c' = ops.foldl collectOp c := by
  intro stores
  induction stores with
  | nil =>
    intro stores' log c c' h
    cases h
    exact ⟨[], rfl, rfl⟩
  | cons s stores ih =>
    intro stores' log c c' h
    simp only [collectLogs, Option.bind_eq_bind, Option.bind_eq_some_iff, Prod.exists,
      Option.some_inj, Prod.mk.injEq] at h
    obtain ⟨c₁, s', hs, c₂, ss', hss, rfl, -⟩ := h
    obtain ⟨ops₁, hvalid, rfl⟩ := collectLog_eq hs
    obtain ⟨ops₂, hlen, rfl⟩ := ih hss
    refine ⟨ops₁.map (Prod.mk log) ++ ops₂, ?_, List.foldl_append.symm⟩
    rw [List.length_append, List.length_map, hlen, opCnts, opCnts, List.map_cons, List.sum_cons,
      opCnt, hvalid]
    rfl

theorem length_foldl_collectOp (ops : List (ℕ × ℕ × NvlogEntry OpEntryHdr)) :
    ∀ c : Collect, (ops.foldl collectOp c).replay.length = c.replay.length + 2 * ops.length := by
  induction ops with
  | nil =>
    intro c
    rfl
  | cons x ops ih =>
    intro c
    rw [List.foldl_cons, ih, List.length_cons]
    simp only [collectOp, addOpReplay, List.length_append, List.length_cons, List.length_nil]
    omega

/-- The first `n` contexts and the records that belong to them are stored. -/
structure Filled (n : ℕ) (c : Collect) : Prop where
  i : c.i = Int32.ofNat (2 * n)
  replay : c.replay.map Prod.fst = (List.range (2 * n)).map Int.ofNat
  contexts : c.contexts.map Prod.fst = (List.range n).map Int.ofNat

theorem toInt_two_mul_div {n : ℕ} (hn : 2 * n < 2 ^ 31) :
    (Int32.ofNat (2 * n) / 2).toInt = n := by
  have hdiv := Int32.ofNat_div hn (show 2 < 2 ^ 31 by decide)
  rw [Nat.mul_div_cancel_left n (by decide)] at hdiv
  have heq : Int32.ofNat (2 * n) / 2 = Int32.ofNat n := hdiv.symm
  rw [heq, Int32.toInt_ofNat_of_lt (by omega)]

theorem Filled.collectOp (h : Filled n c) (hn : 2 * n < 2 ^ 31)
    (x : ℕ × ℕ × NvlogEntry OpEntryHdr) : Filled (n + 1) (collectOp c x) := by
  have hi : c.i.toInt = (2 * n : ℕ) := by rw [h.i, Int32.toInt_ofNat_of_lt hn]
  have hctx : (c.i / 2).toInt = n := by rw [h.i, toInt_two_mul_div hn]
  refine ⟨?_, ?_, ?_⟩
  · rw [Nat.mul_add, Int32.ofNat_add, ← h.i]
    rfl
  · simp only [ReplayScan.collectOp, addOpReplay, List.map_append, h.replay, hi]
    rw [Nat.mul_add, show 2 * 1 = 1 + 1 by rfl, ← Nat.add_assoc, List.range_succ, List.range_succ]
    simp
  · simp only [ReplayScan.collectOp, addOpReplay, List.map_append, h.contexts, hctx]
    rw [List.range_succ, List.map_append]
    rfl

theorem Filled.foldl (ops : List (ℕ × ℕ × NvlogEntry OpEntryHdr)) :
    ∀ {n : ℕ} {c : Collect}, Filled n c → 2 * (n + ops.length) < 2 ^ 31 →
      Filled (n + ops.length) (ops.foldl ReplayScan.collectOp c) := by
  induction ops with
  | nil =>
    intro n c h _
    exact h
  | cons x ops ih =>
    intro n c h hn
    rw [List.length_cons] at hn ⊢
    rw [List.foldl_cons, show n + (ops.length + 1) = n + 1 + ops.length by omega]
    exact ih (h.collectOp (by omega) x) (by omega)

/-! ### Scans that agree have room -/

theorem portAlloc_lt {size : Int32} {bytes : ℕ} (h : portAlloc size = some bytes) :
    bytes < 2 ^ 31 := by
  simp only [portAlloc, Option.ite_none_left_eq_some, Option.some_inj] at h
  have hlt := size.toInt_lt
  omega

/-- If the scans agree then no log makes them use a null pointer, and the array of all valid
operations is not longer than an `int` can say. -/
theorem ScansAgree.room (h : ScansAgree last stores) :
    (∀ s ∈ stores, (validOps last s).isSome) ∧
      sizeofReplayEntry * 2 * opCnts last stores < 2 ^ 31 := by
  obtain ⟨a, c, opsCnt, stores', ha, hc, hagree⟩ := h
  simp only [allocReplayArray, Option.bind_eq_bind, Option.bind_eq_some_iff, Prod.exists,
    Option.some_inj] at ha
  obtain ⟨n, ss, halloc, bytes, hbytes, ctx, -, rfl⟩ := ha
  simp only [collectReplayEntries, Option.bind_eq_bind, Option.bind_eq_some_iff, Prod.exists,
    Option.some_inj, Prod.mk.injEq] at hc
  obtain ⟨c', ss', hcollect, rfl, -, -⟩ := hc
  refine ⟨(opsCnt_allocLogs halloc).1, ?_⟩
  obtain ⟨ops, hlen, rfl⟩ := collectLogs_eq hcollect
  -- the second scan finds all operations that there were before the first one
  have hcnt : opCnts last ss = opCnts last stores := by
    have hmap := congrArg (List.map fun o => (o.getD []).length) hagree.alloc
    rw [List.map_map, List.map_map] at hmap
    exact congrArg List.sum hmap
  have hroom := hagree.replayRoom
  rw [length_foldl_collectOp, hlen, hcnt] at hroom
  have hlt := portAlloc_lt hbytes
  simp only [List.length_nil] at hroom
  rw [sizeofReplayEntry] at hroom ⊢
  omega

/-! ### Well-formed logs -/

/-- An item of a log that the scans accept. -/
def accepts (last : ℕ) (p : ℕ × NvlogEntry OpEntryHdr) : Bool :=
  isOpEntryValid last p.2 && decide (p.2.type = .entry)

/-- The operations of a log that are to be replayed. -/
def PersistentLog.ops (last : ℕ) (p : PersistentLog) : List (ℕ × NvlogEntry OpEntryHdr) :=
  if p.IsOplog then p.items.filter (accepts last) else []

/-- If the log is scanned, then it does not end in a filler. -/
def PersistentLog.EndsInOp (p : PersistentLog) : Prop := p.IsOplog → EndsInEntry p.items

theorem filter_realEntries (es : List (ℕ × NvlogEntry OpEntryHdr)) :
    ((realEntries es).filter fun p => isOpEntryValid last p.2) = es.filter (accepts last) :=
  List.filter_filter

theorem PersistentLog.nvlogEntries_eq (p : PersistentLog) (h : EndsInEntry p.items) :
    nvlogEntries (nvlogLoad p.log) =
      some (realEntries p.items, (nvlogLoad p.log).withHead p.log.storeTailCnt) :=
  nvlogEntries_of_endsInEntry (L := nvlogLoad p.log) p.walk p.bogusOk h

theorem PersistentLog.validOps_eq (p : PersistentLog) (h : p.EndsInOp) :
    validOps last p.toNvlogStore = some (p.ops last) := by
  rw [validOps, ops]
  split
  · rename_i hs
    rw [p.nvlogEntries_eq (h hs), Option.map_some, filter_realEntries]
  · rfl

theorem PersistentLog.endsInOp_of_isSome (p : PersistentLog)
    (h : (validOps last p.toNvlogStore).isSome) : p.EndsInOp := by
  intro hs
  by_contra hend
  rw [validOps, if_pos hs,
    nvlogEntries_eq_none (L := nvlogLoad p.log) p.walk p.bogusOk hend] at h
  cases h

/-- As long as the counter does not wrap, the first scan remembers the head of the log, or the
first valid operation of all logs. -/
theorem foldl_allocVisit (last : ℕ) (es : List (ℕ × NvlogEntry OpEntryHdr)) : ∀ n h : ℕ,
    n + (es.filter (accepts last)).length < 2 ^ 32 →
    (realEntries es).foldl (allocVisit last) (Int32.ofNat n, h) =
      (Int32.ofNat (n + (es.filter (accepts last)).length),
        if n = 0 then ((es.find? (accepts last)).map Prod.fst).getD h else h) := by
  induction es with
  | nil =>
    intro n h _
    simp [realEntries]
  | cons p es ih =>
    intro n h hn
    by_cases hp : accepts last p = true
    · obtain ⟨hv, ht⟩ := Bool.and_eq_true_iff.mp hp
      have hreal : realEntries (p :: es) = p :: realEntries es := List.filter_cons_of_pos ht
      -- the test of the counter for the first operation holds only at the first one
      have hzero : Int32.ofNat n = 0 ↔ n = 0 := by
        rw [← Int32.toInt_inj, Int32.toInt_ofNat', Int32.toInt_zero, Int.bmod_def, Int32.size]
        rw [List.filter_cons_of_pos hp, List.length_cons] at hn
        omega
      rw [List.filter_cons_of_pos hp, List.length_cons] at hn ⊢
      have hstep : allocVisit last (Int32.ofNat n, h) p =
          (Int32.ofNat (n + 1), if n = 0 then p.1 else h) := by
        rw [allocVisit, if_pos hv, Int32.ofNat_add]
        simp only [hzero]
        rfl
      rw [hreal, List.foldl_cons, hstep, ih (n + 1) _ (by omega), List.find?_cons_of_pos hp,
        if_neg (Nat.succ_ne_zero n)]
      simp [Nat.add_assoc, Nat.add_comm 1]
    · have hskip : (realEntries (p :: es)).foldl (allocVisit last) (Int32.ofNat n, h) =
          (realEntries es).foldl (allocVisit last) (Int32.ofNat n, h) := by
        by_cases ht : p.2.type = .entry
        · have hreal : realEntries (p :: es) = p :: realEntries es :=
            List.filter_cons_of_pos (decide_eq_true ht)
          have hv : ¬ isOpEntryValid last p.2 = true := fun hv =>
            hp (Bool.and_eq_true_iff.mpr ⟨hv, decide_eq_true ht⟩)
          rw [hreal, List.foldl_cons, allocVisit, if_neg hv]
        · have hreal : realEntries (p :: es) = realEntries es :=
            List.filter_cons_of_neg (by simpa using ht)
          rw [hreal]
      rw [List.filter_cons_of_neg hp] at hn ⊢
      rw [hskip, ih n h hn, List.find?_cons_of_neg hp]

/-- What a scan that puts the head at `x` leaves of a well-formed log. -/
def PersistentLog.truncatedAt (p : PersistentLog) (x : ℕ) : NvlogStore :=
  { p.toNvlogStore with
    log := nvlogTruncateHead ((nvlogLoad p.log).withHead p.log.storeTailCnt) x }

/-- Moving the head to an item with no valid operation in front of it leaves a well-formed log
with the same operations. -/
theorem PersistentLog.exists_truncated (p : PersistentLog) (last : ℕ) {x : ℕ}
    {pre post : List (ℕ × NvlogEntry OpEntryHdr)} (h : p.items = pre ++ post)
    (hw : Walk p.log x post p.log.storeTailCnt) (hx : p.log.storeHeadCnt ≤ x)
    (hpre : ∀ q ∈ pre, ¬ accepts last q = true) (hend : p.EndsInOp) :
    ∃ q : PersistentLog, q.toNvlogStore = p.truncatedAt x ∧ q.EndsInOp ∧
      q.ops last = p.ops last := by
  have hmem : ∀ q ∈ post, q ∈ p.items := by
    intro q hq
    rw [h]
    exact List.mem_append_right _ hq
  have hcap : p.log.storeTailCnt ≤ x + p.log.logSize := by
    have := p.cap
    omega
  refine ⟨⟨p.truncatedAt x, post, hw, fun q hq => p.bogusOk q (hmem q hq), hcap,
    fun q hq => p.filled q (hmem q hq)⟩, rfl, fun hs => ?_, ?_⟩
  · have hends : EndsInEntry p.items := hend hs
    rw [h] at hends
    exact hends.of_append
  · show (if p.IsOplog then post.filter (accepts last) else []) = p.ops last
    rw [ops, h, List.filter_append, List.filter_eq_nil_iff.mpr hpre, List.nil_append]

theorem PersistentLog.allocLog_eq (p : PersistentLog) (hs : p.IsOplog) (hend : p.EndsInOp)
    {st : Int32 × ℕ}
    (h : (realEntries p.items).foldl (allocVisit last) (opsCnt, p.log.storeHeadCnt) = st) :
    allocLog last opsCnt p.toNvlogStore = some (st.1, p.truncatedAt st.2) := by
  rw [allocLog, if_pos hs]
  dsimp only
  rw [nvlogScan_eq, p.nvlogEntries_eq (hend hs), Option.map_some]
  simp only [Option.bind_eq_bind, Option.bind_some]
  rw [show (nvlogLoad p.log).headCnt = p.log.storeHeadCnt from rfl, h]
  rfl

/-- The first scan of a log counts its operations and keeps them. -/
theorem PersistentLog.exists_allocLog (p : PersistentLog) (last n : ℕ) (hend : p.EndsInOp)
    (hn : n + (p.ops last).length < 2 ^ 32) :
    ∃ q : PersistentLog, allocLog last (Int32.ofNat n) p.toNvlogStore =
        some (Int32.ofNat (n + (p.ops last).length), q.toNvlogStore) ∧
      q.EndsInOp ∧ q.ops last = p.ops last := by
  by_cases hs : p.IsOplog
  · have hops : p.ops last = p.items.filter (accepts last) := if_pos hs
    have hfold := foldl_allocVisit last p.items n p.log.storeHeadCnt (hops ▸ hn)
    rw [← hops] at hfold
    by_cases hfirst : n = 0 ∧ ∃ e, p.items.find? (accepts last) = some e
    · -- the head goes to the first operation that is counted
      obtain ⟨rfl, ⟨x, e⟩, he⟩ := hfirst
      obtain ⟨-, pre, post, hsplit, hpre⟩ := List.find?_eq_some_iff_append.mp he
      rw [he] at hfold
      obtain ⟨m, hw1, hw2⟩ := Ring.Walk.split (hsplit ▸ p.walk)
      obtain rfl : x = m := hw2.1
      obtain ⟨q, hstore, hq⟩ := p.exists_truncated last hsplit hw2 hw1.le
        (fun q hq => by simpa using hpre q hq) hend
      exact ⟨q, by rw [p.allocLog_eq hs hend hfold, hstore]; rfl, hq⟩
    · have hhead : (if n = 0 then ((p.items.find? (accepts last)).map Prod.fst).getD
          p.log.storeHeadCnt else p.log.storeHeadCnt) = p.log.storeHeadCnt := by
        split
        · rename_i h0
          rw [Option.eq_none_iff_forall_ne_some.mpr fun e he => hfirst ⟨h0, e, he⟩]
          rfl
        · rfl
      rw [hhead] at hfold
      obtain ⟨q, hstore, hq⟩ := p.exists_truncated last (List.nil_append _).symm p.walk le_rfl
        nofun hend
      exact ⟨q, by rw [p.allocLog_eq hs hend hfold, hstore], hq⟩
  · refine ⟨p, ?_, hend, rfl⟩
    rw [allocLog, if_neg hs, ops, if_neg hs]
    rfl

/-- The second scan of a log. -/
theorem PersistentLog.exists_collectLog (p : PersistentLog) (last log : ℕ) (c : Collect)
    (hend : p.EndsInOp) :
    ∃ s', collectLog last log c p.toNvlogStore =
        some (((p.ops last).map (Prod.mk log)).foldl collectOp c, s') ∧
      validOps last s' = some (p.ops last) := by
  by_cases hs : p.IsOplog
  · obtain ⟨q, hstore, hq1, hq2⟩ := p.exists_truncated last (List.nil_append _).symm
      p.walk le_rfl nofun hend
    refine ⟨q.toNvlogStore, ?_, by rw [q.validOps_eq hq1, hq2]⟩
    rw [collectLog, if_pos hs]
    dsimp only
    rw [nvlogScan_eq, p.nvlogEntries_eq (hend hs), Option.map_some]
    simp only [Option.bind_eq_bind, Option.bind_some]
    rw [foldl_collectVisit, filter_realEntries, ops, if_pos hs, hstore]
    rfl
  · refine ⟨p.toNvlogStore, ?_, p.validOps_eq hend⟩
    rw [collectLog, if_neg hs, ops, if_neg hs]
    rfl

/-! ### Lists of well-formed logs -/

/-- The number of operations that are to be replayed. -/
def opsTotal (last : ℕ) (logs : List PersistentLog) : ℕ :=
  (logs.map fun p => (p.ops last).length).sum

theorem map_validOps (logs : List PersistentLog) (hend : ∀ p ∈ logs, p.EndsInOp) :
    (logs.map PersistentLog.toNvlogStore).map (validOps last) =
      (logs.map (PersistentLog.ops last)).map some := by
  rw [List.map_map, List.map_map]
  exact List.map_congr_left fun p hp => p.validOps_eq (hend p hp)

theorem opCnts_eq (logs : List PersistentLog) (hend : ∀ p ∈ logs, p.EndsInOp) :
    opCnts last (logs.map PersistentLog.toNvlogStore) = opsTotal last logs := by
  rw [opCnts, opsTotal, List.map_map]
  refine congrArg List.sum (List.map_congr_left fun p hp => ?_)
  show ((validOps last p.toNvlogStore).getD []).length = _
  rw [p.validOps_eq (hend p hp), Option.getD_some]

/-- The first scan counts the operations and leaves well-formed logs with all of them. -/
theorem exists_allocLogs (last : ℕ) (logs : List PersistentLog) : ∀ n : ℕ,
    (∀ p ∈ logs, p.EndsInOp) → n + opsTotal last logs < 2 ^ 32 →
    ∃ logs' : List PersistentLog,
      allocLogs last (Int32.ofNat n) (logs.map PersistentLog.toNvlogStore) =
        some (Int32.ofNat (n + opsTotal last logs), logs'.map PersistentLog.toNvlogStore) ∧
      (∀ p ∈ logs', p.EndsInOp) ∧
      logs'.map (PersistentLog.ops last) = logs.map (PersistentLog.ops last) := by
  induction logs with
  | nil =>
    intro n _ _
    exact ⟨[], rfl, nofun, rfl⟩
  | cons p logs ih =>
    intro n hend hn
    obtain ⟨hp, hlogs⟩ := List.forall_mem_cons.mp hend
    have htotal : opsTotal last (p :: logs) = (p.ops last).length + opsTotal last logs := rfl
    rw [htotal, ← Nat.add_assoc] at hn ⊢
    obtain ⟨q, hq, hqend, hqops⟩ := p.exists_allocLog last n hp (by omega)
    obtain ⟨logs', h, hend', hops⟩ := ih _ hlogs hn
    refine ⟨q :: logs', ?_, List.forall_mem_cons.mpr ⟨hqend, hend'⟩, ?_⟩
    · simp only [List.map_cons, allocLogs, hq, h, Option.bind_eq_bind, Option.bind_some]
    · rw [List.map_cons, List.map_cons, hqops, hops]

/-- The operations that are to be replayed, each with the number of its log, from the log number
`log` on. -/
def allOps (last : ℕ) : ℕ → List PersistentLog → List (ℕ × ℕ × NvlogEntry OpEntryHdr)
  | _, [] => []
  | log, p :: logs => (p.ops last).map (Prod.mk log) ++ allOps last (log + 1) logs

theorem length_allOps (last : ℕ) (logs : List PersistentLog) :
    ∀ log, (allOps last log logs).length = opsTotal last logs := by
  induction logs with
  | nil => exact fun _ => rfl
  | cons p logs ih =>
    intro log
    rw [allOps, List.length_append, List.length_map, ih]
    rfl

/-- The operations of logs whose heads were moved are the same. -/
theorem allOps_congr {last : ℕ} : ∀ {logs logs' : List PersistentLog} (log : ℕ),
    logs'.map (PersistentLog.ops last) = logs.map (PersistentLog.ops last) →
    allOps last log logs' = allOps last log logs := by
  intro logs
  induction logs with
  | nil =>
    intro logs' log h
    rw [List.map_nil, List.map_eq_nil_iff] at h
    rw [h]
  | cons p logs ih =>
    intro logs' log h
    obtain ⟨p', logs', rfl, hp, hlogs⟩ := List.map_eq_cons_iff.mp h
    rw [allOps, allOps, hp, ih (log + 1) hlogs]

/-- The second scan stores the operations and keeps them in the logs. -/
theorem exists_collectLogs (last : ℕ) (logs : List PersistentLog) : ∀ (log : ℕ) (c : Collect),
    (∀ p ∈ logs, p.EndsInOp) →
    ∃ stores' : List NvlogStore,
      collectLogs last log c (logs.map PersistentLog.toNvlogStore) =
        some ((allOps last log logs).foldl collectOp c, stores') ∧
      stores'.map (validOps last) = (logs.map (PersistentLog.ops last)).map some := by
  induction logs with
  | nil =>
    intro log c _
    exact ⟨[], rfl, rfl⟩
  | cons p logs ih =>
    intro log c hend
    obtain ⟨hp, hlogs⟩ := List.forall_mem_cons.mp hend
    obtain ⟨s', hs, hvalid⟩ := p.exists_collectLog last log c hp
    obtain ⟨stores', h, hmap⟩ := ih (log + 1)
      (((p.ops last).map (Prod.mk log)).foldl collectOp c) hlogs
    refine ⟨s' :: stores', ?_, ?_⟩
    · simp only [List.map_cons, collectLogs, hs, h, Option.bind_eq_bind, Option.bind_some, allOps,
        List.foldl_append]
    · rw [List.map_cons, List.map_cons, List.map_cons, hvalid, hmap]

theorem portAlloc_ofInt {k : ℕ} (h : k < 2 ^ 31) : portAlloc (Int32.ofInt k) = some k := by
  have hk : (Int32.ofInt k).toInt = k := Int32.toInt_ofInt_of_le (by omega) (by omega)
  rw [portAlloc, hk, if_neg (by omega), Int.toNat_natCast]

theorem ScansAgree.opsTotal_lt {logs : List PersistentLog}
    (h : ScansAgree last (logs.map PersistentLog.toNvlogStore)) :
    (∀ p ∈ logs, p.EndsInOp) ∧ sizeofReplayEntry * 2 * opsTotal last logs < 2 ^ 31 := by
  obtain ⟨hsome, hroom⟩ := h.room
  have hend : ∀ p ∈ logs, p.EndsInOp := fun p hp =>
    p.endsInOp_of_isSome (hsome _ (List.mem_map_of_mem hp))
  rw [opCnts_eq logs hend] at hroom
  exact ⟨hend, hroom⟩

/-- What the scans leave when no operational log ends in a filler and there is room: arrays for
all operations, and these stored. -/
structure Built (last : ℕ) (logs : List PersistentLog) (a : Alloc) (c : Collect)
    (stores' : List NvlogStore) : Prop where
  alloc : allocReplayArray last (logs.map PersistentLog.toNvlogStore) = some a
  collect : collectReplayEntries last a.stores = some (c, c.i / 2, stores')
  stores : c = (allOps last 0 logs).foldl collectOp ⟨0, [], []⟩
  opsCnt : a.opsCnt = Int32.ofNat (opsTotal last logs)
  replayBytes : a.replayBytes = sizeofReplayEntry * 2 * opsTotal last logs
  contextBytes : a.contextBytes = sizeofOpContext * opsTotal last logs
  allocKept : a.stores.map (validOps last) =
    (logs.map PersistentLog.toNvlogStore).map (validOps last)
  collectKept : stores'.map (validOps last) =
    (logs.map PersistentLog.toNvlogStore).map (validOps last)

theorem exists_built {logs : List PersistentLog} (hend : ∀ p ∈ logs, p.EndsInOp)
    (hroom : sizeofReplayEntry * 2 * opsTotal last logs < 2 ^ 31) :
    ∃ a c stores', Built last logs a c stores' := by
  obtain ⟨N, hN⟩ : ∃ N, N = opsTotal last logs := ⟨_, rfl⟩
  rw [← hN, sizeofReplayEntry] at hroom
  obtain ⟨logs', halloc, hend', hops⟩ := exists_allocLogs last logs 0 hend (by omega)
  rw [Nat.zero_add, ← hN] at halloc
  have hint : (Int32.ofNat N).toInt = N := Int32.toInt_ofNat_of_lt (by omega)
  have hreplay : portAlloc (replaySize (Int32.ofNat N)) = some (24 * 2 * N) := by
    rw [replaySize, hint]
    exact portAlloc_ofInt hroom
  have hcontext : portAlloc (contextSize (Int32.ofNat N)) = some (16 * N) := by
    rw [contextSize, hint]
    exact portAlloc_ofInt (k := 16 * N) (by omega)
  obtain ⟨stores', hcollect, hkept⟩ := exists_collectLogs last logs' 0 ⟨0, [], []⟩ hend'
  rw [allOps_congr 0 hops] at hcollect
  refine ⟨⟨Int32.ofNat N, 24 * 2 * N, 16 * N, logs'.map PersistentLog.toNvlogStore⟩,
    (allOps last 0 logs).foldl collectOp ⟨0, [], []⟩, stores', ?_, ?_, rfl, ?_, ?_, ?_, ?_, ?_⟩
  · simp only [allocReplayArray, show (0 : Int32) = Int32.ofNat 0 from rfl, halloc, hreplay,
      hcontext, Option.bind_eq_bind, Option.bind_some]
  · simp only [collectReplayEntries, hcollect, Option.bind_eq_bind, Option.bind_some]
  · rw [hN]
  · rw [← hN, sizeofReplayEntry]
  · rw [← hN, sizeofOpContext]
  · rw [map_validOps logs hend, map_validOps logs' hend', hops]
  · rw [hkept, hops, map_validOps logs hend]

theorem Built.filled {logs : List PersistentLog} {a : Alloc} {stores' : List NvlogStore}
    (h : Built last logs a c stores')
    (hroom : sizeofReplayEntry * 2 * opsTotal last logs < 2 ^ 31) :
    Filled (opsTotal last logs) c := by
  rw [sizeofReplayEntry] at hroom
  have hf := Filled.foldl (allOps last 0 logs) (n := 0) (c := ⟨0, [], []⟩) ⟨rfl, rfl, rfl⟩
    (by rw [length_allOps]; omega)
  rwa [← h.stores, Nat.zero_add, length_allOps] at hf

theorem scansAgree_of_lt {logs : List PersistentLog} (hend : ∀ p ∈ logs, p.EndsInOp)
    (hroom : sizeofReplayEntry * 2 * opsTotal last logs < 2 ^ 31) :
    ScansAgree last (logs.map PersistentLog.toNvlogStore) := by
  obtain ⟨a, c, stores', hb⟩ := exists_built hend hroom
  have hfilled := hb.filled hroom
  rw [sizeofReplayEntry] at hroom
  have hint : a.opsCnt.toInt = opsTotal last logs := by
    rw [hb.opsCnt]
    exact Int32.toInt_ofNat_of_lt (by omega)
  have hreplayLen := congrArg List.length hfilled.replay
  have hcontextLen := congrArg List.length hfilled.contexts
  rw [List.length_map, List.length_map, List.length_range] at hreplayLen hcontextLen
  refine ⟨a, c, c.i / 2, stores', hb.alloc, hb.collect, ?_, ?_, ?_, ?_, ?_, hb.allocKept,
    hb.collectKept⟩
  · rw [← Int32.toInt_inj, hfilled.i, toInt_two_mul_div (by omega), hint]
  · rw [hint]
    exact hfilled.replay
  · rw [hint]
    exact hfilled.contexts
  · rw [hreplayLen, hb.replayBytes, sizeofReplayEntry]
    omega
  · rw [hcontextLen, hb.contextBytes]

/-- The scans agree exactly when no operational log that is scanned ends in a filler and the
records of all operations have less than `2 ^ 31` bytes. -/
theorem scansAgree_iff (last : ℕ) (logs : List PersistentLog) :
    ScansAgree last (logs.map PersistentLog.toNvlogStore) ↔
      (∀ p ∈ logs, p.EndsInOp) ∧ sizeofReplayEntry * 2 * opsTotal last logs < 2 ^ 31 :=
  ⟨ScansAgree.opsTotal_lt, fun ⟨hend, hroom⟩ => scansAgree_of_lt hend hroom⟩

/-! ### Logs that have too many operations -/

/-- An operation with one operand that began at 1 and committed at 2. -/
def op : NvlogEntry OpEntryHdr := ⟨2, 64, .entry, some ⟨1⟩⟩

/-- A log of 1 MB with 11000 such operations. -/
def opLog : Nvlog OpEntryHdr where
  headCnt := 0
  tailCnt := 64 * 11000
  prevHeadCnt := 0
  logSize := oplogSize
  buffer := fun i => if i % 64 = 0 then some op else none
  storeHeadCnt := 0
  storeTailCnt := 64 * 11000

theorem walk_opLog : ∀ m k : ℕ, k + m ≤ 11000 →
    Walk opLog (64 * k) ((List.range' k m).map fun i => (64 * i, op)) (64 * (k + m)) := by
  intro m
  induction m with
  | zero =>
    intro k _
    exact rfl
  | succ m ih =>
    intro k hk
    have hidx : 64 * k % oplogSize = 64 * k := Nat.mod_eq_of_lt (by rw [oplogSize]; omega)
    refine ⟨rfl, ?_, by decide, ?_, ?_⟩
    · show (if 64 * k % oplogSize % 64 = 0 then some op else none) = some op
      rw [hidx, if_pos (Nat.mul_mod_right 64 k)]
    · show 64 * k % oplogSize + 64 ≤ oplogSize
      rw [hidx, oplogSize]
      omega
    · rw [show k + (m + 1) = k + 1 + m by omega]
      exact ih (k + 1) (by omega)

def fullLog : PersistentLog where
  type := .oplog
  status := .normal
  log := opLog
  items := (List.range' 0 11000).map fun i => (64 * i, op)
  walk := walk_opLog 11000 0 le_rfl
  bogusOk := by
    intro p hp
    obtain ⟨i, -, rfl⟩ := List.mem_map.mp hp
    exact nofun
  cap := by
    show 64 * 11000 ≤ 0 + oplogSize
    decide
  filled := by
    intro p hp _
    obtain ⟨i, -, rfl⟩ := List.mem_map.mp hp
    rfl

theorem length_ops_fullLog : (fullLog.ops 0).length = 11000 := by
  have hfilter : fullLog.ops 0 = fullLog.items := by
    refine List.filter_eq_self.mpr fun p hp => ?_
    obtain ⟨i, -, rfl⟩ := List.mem_map.mp hp
    rfl
  rw [hfilter]
  exact (List.length_map _).trans List.length_range'

theorem opsTotal_replicate (last m : ℕ) (p : PersistentLog) :
    opsTotal last (List.replicate m p) = m * (p.ops last).length := by
  rw [opsTotal, List.map_replicate, List.sum_replicate_nat]

/-- The 45056000 operations of 4096 threads need more bytes than an `int` can say. -/
theorem replay_size_overflows :
    ¬ ∀ (last : ℕ) (logs : List PersistentLog),
      ScansAgree last (logs.map PersistentLog.toNvlogStore) := by
  intro h
  have hroom := (h 0 (List.replicate 4096 fullLog)).opsTotal_lt.2
  rw [opsTotal_replicate, length_ops_fullLog] at hroom
  exact absurd hroom (by decide)

end TimeStone.ReplayScan
