/-
Operation logging (`ts_set_op`, `ts_memcpy_operand`, `oplog_enq`).

A transaction describes its operation in `op_info`, a type and operand bytes, and
`oplog_enq` copies it into an entry of the operation log, behind the clocks.  The operands
may grow to `TS_MAX_OPERAND_SIZE` bytes, but `oplog_enq` accepts only fewer
(`full_operands_rejected`).

The log is the one of `NvlogPersist`, where a crash may come before every instruction; `prog`
are the calls that `oplog_enq` has still to make, and `ops` records which operation was logged
at which counter.

* `OInv.step` — the entry at a counter gets the stores of its operation;
* `returnsOps_of_good` — `nvlog_peek_head` and `nvlog_deq` return the operations of a log, in
  their order;
* `ops_round_trip` — over whole runs, from the log and from what `nvlog_load` finds.
-/
import TimeStone.NvlogClwb
import Mathlib.Data.List.GetD

namespace TimeStone.ByteLog.OpLogging

open Bytes

/-- An operation with its clocks. -/
structure Operation where
  opType : ℕ
  localClk : ℕ
  wrtClk : ℕ
  opd : List UInt8
  deriving DecidableEq

/-- `ts_op_info_t`: `curr`, and the memory from the start of the union on, which begins with
a `ts_op_entry_hdr_t`. -/
structure OpInfo where
  curr : ℕ
  mem : ℕ → UInt8

/-- The bytes of the union in `ts_op_info_t`. -/
def sizeofUnion : ℕ := maxOperandSize + sizeofOpEntryHdr

/-- The offset of `op_type` in `ts_op_entry_hdr_t`. -/
def opTypeOff : ℕ := 8

/-- `ts_set_op`: the stores to the union. -/
def tsSetOp (opType : ℕ) : List Store := word opTypeOff 8 opType

/-- The check of `ts_alloc_operand`. -/
def AllocAccepts (o : OpInfo) (size : ℕ) : Prop := o.curr + size ≤ maxOperandSize

instance (o : OpInfo) (size : ℕ) : Decidable (AllocAccepts o size) :=
  inferInstanceAs (Decidable (_ ≤ _))

/-- `ts_memcpy_operand`: the stores behind the operands that are there. -/
def tsMemcpyOperand (o : OpInfo) (bs : List UInt8) : List Store :=
  word (sizeofOpEntryHdr + o.curr) bs.length (ofBytes bs)

/-- The check of `oplog_enq`. -/
def EnqAccepts (o : OpInfo) : Prop := o.curr < maxOperandSize

/-- The calls of `oplog_enq` that fill the entry at counter `cnt`. -/
def oplogFills (cnt : ℕ) (o : OpInfo) (localClk wrtClk : ℕ) : List PAction :=
  [.fill cnt 0 8 wrtClk,
    .fill cnt sizeofNvlogEntryHdr 8 localClk,
    .fill cnt (sizeofNvlogEntryHdr + opTypeOff) 8 (load o.mem opTypeOff 8),
    .fill cnt (sizeofNvlogEntryHdr + sizeofOpEntryHdr) o.curr (load o.mem sizeofOpEntryHdr o.curr)]

/-- A thread with its operation log.  `opType` and `opd` are what it has passed to
`ts_set_op` and `ts_memcpy_operand` for the current operation, `stored` the stores made to
`op_info`, and `ops` the operations logged, by the counters of their entries. -/
structure State where
  info : OpInfo
  log : PSt
  prog : List PAction
  opType : ℕ
  opd : List UInt8
  stored : List Store
  ops : ℕ → Option Operation

inductive Action
  /-- `ts_set_op`. -/
  | setOp (opType : ℕ)
  /-- `ts_memcpy_operand`. -/
  | memcpyOperand (bs : List UInt8)
  /-- `oplog_enq`. -/
  | oplogEnq (localClk wrtClk : ℕ)
  /-- `oplog_enq_persist`. -/
  | enqPersist
  /-- `oplog_reclaim`, which stops after `k` entries. -/
  | reclaim (k : ℕ)
  /-- The next instruction of the current call. -/
  | next
  /-- The cache writes a place back. -/
  | evict (p : Place)

/-- The thread is between two calls. -/
def State.Quiet (s : State) : Prop := s.log.todo = [] ∧ s.prog = []

/-- Perform stores to `op_info`. -/
def OpInfo.put (o : OpInfo) (curr : ℕ) (ss : List Store) : OpInfo := ⟨curr, Bytes.put o.mem ss⟩

/-- One step.  The type and the clocks are 64-bit numbers, and `ts_alloc_operand` accepts the
operands. -/
def step (s : State) : Action → Option State
  | .setOp t =>
    if s.log.todo.isEmpty ∧ s.prog.isEmpty ∧ t < 2 ^ 64 then
      some
        { s with
          info := s.info.put 0 (tsSetOp t)
          stored := s.stored ++ tsSetOp t
          opType := t
          opd := [] }
    else none
  | .memcpyOperand bs =>
    if s.log.todo.isEmpty ∧ s.prog.isEmpty ∧ AllocAccepts s.info bs.length then
      some
        { s with
          info := s.info.put (s.info.curr + bs.length) (tsMemcpyOperand s.info bs)
          stored := s.stored ++ tsMemcpyOperand s.info bs
          opd := s.opd ++ bs }
    else none
  | .oplogEnq localClk wrtClk =>
    if s.prog.isEmpty ∧ localClk < 2 ^ 64 ∧ wrtClk < 2 ^ 64 then
      let objSize := sizeofOpEntryHdr + s.info.curr
      let cnt := (nvlogMakeRoom s.log.log (nvlogEntrySize objSize)).tailCnt
      (pstep s.log (.act (.enq objSize))).map fun log =>
        if (nvlogEnq s.log.log objSize).2 = none then { s with log := log }
        else
          { s with
            log := log
            prog := oplogFills cnt s.info localClk wrtClk
            ops := fun c =>
              if c = cnt then some ⟨s.opType, localClk, wrtClk, s.opd⟩ else s.ops c }
    else none
  | .enqPersist =>
    if s.prog.isEmpty then
      (pstep s.log (.act .enqPersist)).map fun log => { s with log := log }
    else none
  | .reclaim k =>
    if s.prog.isEmpty then
      (pstep s.log (.act (.reclaim k))).map fun log => { s with log := log }
    else none
  | .next =>
    match s.log.todo, s.prog with
    | _ :: _, _ => (pstep s.log (.act .op)).map fun log => { s with log := log }
    | [], a :: prog => (pstep s.log (.act a)).map fun log => { s with log := log, prog := prog }
    | [], [] => none
  | .evict p => (pstep s.log (.evict p)).map fun log => { s with log := log }

/-- A thread after `ts_thread_init`, which has zeroed `op_info` and created a log of `2 ^ k`
bytes. -/
def IsInit (k : ℕ) (s : State) : Prop :=
  s.info.curr = 0 ∧ (∀ i < sizeofUnion, s.info.mem i = 0) ∧ IsPInit k s.log ∧ s.prog = [] ∧
    s.opType = 0 ∧ s.opd = [] ∧ s.stored = [] ∧ ∀ c, s.ops c = none

/-- The operands of an operation are not exactly `TS_MAX_OPERAND_SIZE` bytes; and the calls of
`nvlog_enq` and `nvlog_enq_persist` keep the log decodable, and what `clwb` was called for is
in memory at each fence. -/
def StepOk (s : State) : Action → Prop
  | .memcpyOperand bs => s.info.curr + bs.length ≠ maxOperandSize
  | .oplogEnq .. => CallOk s.log (.enq (sizeofOpEntryHdr + s.info.curr))
  | .enqPersist => CallOk s.log .enqPersist
  | .next => FenceOk s.log
  | _ => True

instance (s : State) : (a : Action) → Decidable (StepOk s a)
  | .memcpyOperand _ => inferInstanceAs (Decidable (_ ≠ _))
  | .oplogEnq .. => inferInstanceAs (Decidable (CallOk s.log (.enq _)))
  | .enqPersist => inferInstanceAs (Decidable (CallOk s.log .enqPersist))
  | .next => inferInstanceAs (Decidable (FenceOk s.log))
  | .setOp _ | .reclaim _ | .evict _ => inferInstanceAs (Decidable True)

/-- The entry at the start of this memory carries the operation. -/
structure Carries (mem : ℕ → UInt8) (g : Operation) : Prop where
  wrtClk : load mem 0 8 = g.wrtClk
  localClk : load mem sizeofNvlogEntryHdr 8 = g.localClk
  opType : load mem (sizeofNvlogEntryHdr + opTypeOff) 8 = g.opType
  opd : ∀ i < g.opd.length,
    mem (sizeofNvlogEntryHdr + sizeofOpEntryHdr + i) = g.opd.getD i 0

/-- The log after `j` calls of `nvlog_deq`. -/
def deqs : ℕ → Nvlog → Nvlog
  | 0, L => L
  | j + 1, L => deqs j (nvlogDeq L).1

/-- The counters of the operations in the log, in the order in which they were logged. -/
def Queued (ops : ℕ → Option Operation) (L : Nvlog) (cs : List ℕ) : Prop :=
  cs.Pairwise (· < ·) ∧
    ∀ c, c ∈ cs ↔ L.headCnt ≤ c ∧ c < L.tailCnt ∧ (ops c).isSome

/-- The calls of `nvlog_peek_head` and `nvlog_deq`, after any number of calls before, return
the entries of the operations in the log one after the other, and then `NULL`; and the entry
of an operation carries it. -/
def ReturnsOps (ops : ℕ → Option Operation) (L : Nvlog) : Prop :=
  ∃ cs, Queued ops L cs ∧
    (∀ j, (nvlogPeekHead (deqs j L)).2 = cs[j]?.map (nvlogIndex L) ∧
      (nvlogDeq (deqs j L)).2 = cs[j]?.map (nvlogIndex L)) ∧
    ∀ c ∈ cs, ∀ g, ops c = some g → Carries (fun i => L.buffer (nvlogIndex L c + i)) g

/-- Operation logging is a round trip. -/
structure RoundTrip (s : State) : Prop where
  /-- `oplog_enq` accepts what `ts_alloc_operand` has accepted. -/
  accepts : EnqAccepts s.info
  /-- No byte outside `op_info` is written. -/
  bounds : ∀ st ∈ s.stored, st.addr < sizeofUnion
  /-- The log returns the operations. -/
  returns : s.Quiet → ReturnsOps s.ops s.log.log
  /-- It does so when it is loaded again from what is durable. -/
  loaded : s.Quiet → ∀ D, Image s.log D → ReturnsOps s.ops D

/-! ### The bytes of an entry -/

/-- The stores that make an entry one for the operation. -/
def opStores (g : Operation) : List Store :=
  entryHdr 0 (nvlogEntrySize (sizeofOpEntryHdr + g.opd.length)) ++
    (word 0 8 g.wrtClk ++ (word sizeofNvlogEntryHdr 8 g.localClk ++
      (word (sizeofNvlogEntryHdr + opTypeOff) 8 g.opType ++
        word (sizeofNvlogEntryHdr + sizeofOpEntryHdr) g.opd.length (ofBytes g.opd))))

/-- The type and the clocks are 64-bit numbers. -/
def Operation.Fits (g : Operation) : Prop :=
  g.opType < 2 ^ 64 ∧ g.localClk < 2 ^ 64 ∧ g.wrtClk < 2 ^ 64

variable {s s' : State} {g : Operation} {mem : ℕ → UInt8} {L D : Nvlog}
  {items : List (ℕ × Hdr)} {pend : List Entry} {ops : ℕ → Option Operation}

theorem carries_of_holds (h : Holds mem (opStores g)) (hg : g.Fits) : Carries mem g := by
  obtain ⟨ht, hl, hw⟩ := hg
  have hword : ∀ {i w v st}, st ∈ word i w v → i ≤ st.addr ∧ st.addr < i + w := fun h => mem_word h
  constructor
  · rw [opStores, ← List.append_assoc] at h
    refine h.load_word hw fun st hst => .inr ?_
    simp only [List.mem_append] at hst
    rcases hst with hst | hst | hst
    · exact (hword hst).1.trans' (by decide)
    · exact (hword hst).1.trans' (by decide)
    · exact (hword hst).1.trans' (by decide)
  · rw [opStores, ← List.append_assoc, ← List.append_assoc] at h
    refine h.load_word hl fun st hst => .inr ?_
    rcases List.mem_append.mp hst with hst | hst
    · exact (hword hst).1.trans' (by decide)
    · exact (hword hst).1.trans' (by decide)
  · rw [opStores, ← List.append_assoc, ← List.append_assoc, ← List.append_assoc] at h
    exact h.load_word ht fun st hst => .inr ((hword hst).1.trans' (by decide))
  · intro i hi
    rw [opStores, ← List.append_assoc, ← List.append_assoc, ← List.append_assoc,
      ← List.append_nil (_ ++ _)] at h
    have hload := h.load_word (load_lt _ _ _) nofun
    have hbyte := byte_of_load_eq (j := 0) (hload.trans rfl) hi
    rwa [Nat.zero_add] at hbyte

/-! ### What the log returns -/

/-- The entries are those of operations. -/
def Logged (ops : ℕ → Option Operation) (e : Entry) (p : ℕ × Hdr) : Prop :=
  ∃ g, ops p.1 = some g ∧ g.Fits ∧ e.stores = opStores g

theorem good_deqs (h : Good L items pend) (j : ℕ) :
    ∃ items', Good (deqs j L) items' (pend.drop j) := by
  induction j generalizing L items pend with
  | zero => exact ⟨items, h⟩
  | succ j ih =>
    obtain ⟨⟨c, items', -, heq, hg⟩, -⟩ := h.deq
    rw [deqs, heq]
    obtain ⟨items'', hg'⟩ := ih hg
    rw [List.drop_tail] at hg'
    exact ⟨items'', hg'⟩

/-- The addresses of the pending entries are those of the items. -/
theorem ptr_eq (h : Good L items pend) :
    pend.map Entry.ptr = ((entries items).map Prod.fst).map (nvlogIndex L) := by
  have hpend := h.pend
  clear h
  generalize entries items = es at hpend
  induction hpend with
  | nil => rfl
  | cons he _ ih => rw [List.map_cons, List.map_cons, List.map_cons, ih, he.ptr, nvlogIndex]

/-- A log whose entries are those of the operations returns them. -/
theorem returnsOps_of_good (h : Good L items pend)
    (hops : List.Forall₂ (Logged ops) pend (entries items))
    (hkept : ∀ c g, ops c = some g → L.headCnt ≤ c → c < L.tailCnt →
      ∃ p ∈ entries items, p.1 = c) : ReturnsOps ops L := by
  have hmem : ∀ p ∈ entries items, ∃ g, ops p.1 = some g ∧ g.Fits ∧
      Holds (fun i => L.buffer (nvlogIndex L p.1 + i)) (opStores g) := by
    intro p hp
    obtain ⟨j, hj, rfl⟩ := List.getElem_of_mem hp
    have hlen := h.pend.length_eq
    have hok := h.pend.get (i := j) (by omega) hj
    obtain ⟨g, hg, hfits, hst⟩ := hops.get (i := j) (by omega) hj
    refine ⟨g, hg, hfits, ?_⟩
    have hh := hok.holds
    rw [hst, hok.ptr] at hh
    exact hh
  refine ⟨(entries items).map Prod.fst, ⟨?_, fun c => ⟨fun hc => ?_, ?_⟩⟩, fun j => ?_, ?_⟩
  · refine List.pairwise_map.mpr (h.pairwise.imp_of_mem fun hp _ hpq => ?_)
    have := h.mem (mem_entries.mp hp).1
    omega
  · obtain ⟨p, hp, rfl⟩ := List.mem_map.mp hc
    obtain ⟨g, hg, -⟩ := hmem p hp
    have := h.mem (mem_entries.mp hp).1
    exact ⟨this.1, by omega, Option.isSome_iff_exists.mpr ⟨g, hg⟩⟩
  · rintro ⟨h1, h2, hc⟩
    obtain ⟨g, hg⟩ := Option.isSome_iff_exists.mp hc
    obtain ⟨p, hp, rfl⟩ := hkept c g hg h1 h2
    exact List.mem_map_of_mem hp
  · -- behind `j` calls the entries from the `j`-th one on are pending
    obtain ⟨items', hg⟩ := good_deqs h j
    have hhead : (pend.drop j).head?.map Entry.ptr =
        ((entries items).map Prod.fst)[j]?.map (nvlogIndex L) := by
      rw [List.head?_drop, ← List.getElem?_map, ptr_eq h, List.getElem?_map]
    exact ⟨hg.peek.2.trans hhead, hg.deq.2.trans hhead⟩
  · intro c hc g hg
    obtain ⟨p, hp, rfl⟩ := List.mem_map.mp hc
    obtain ⟨g', hg', hfits, hholds⟩ := hmem p hp
    obtain rfl := Option.some_inj.mp (hg.symm.trans hg')
    exact carries_of_holds hholds hfits

/-! ### The invariant -/

/-- The stores to the entry at counter `c` that are still to come. -/
def remaining (c : ℕ) (prog : List PAction) : List Store :=
  prog.flatMap fun
    | .fill c' off w v => if c' = c then word off w v else []
    | _ => []

structure OInv (s : State) : Prop where
  log : Follows s.log
  curr : s.info.curr = s.opd.length
  limit : s.info.curr < maxOperandSize
  opType : load s.info.mem opTypeOff 8 = s.opType
  opd : ∀ i < s.opd.length, s.info.mem (sizeofOpEntryHdr + i) = s.opd.getD i 0
  fits : s.opType < 2 ^ 64
  bounds : ∀ st ∈ s.stored, st.addr < sizeofUnion
  prog : ∀ a ∈ s.prog, ∃ c off w v, a = .fill c off w v
  record : ∀ c e, s.log.written c = some e →
    ∃ g, s.ops c = some g ∧ g.Fits ∧ e.stores ++ remaining c s.prog = opStores g
  kept : ∀ c g, s.ops c = some g → ∃ e, s.log.written c = some e

theorem OInv.init {k : ℕ} (h : IsInit k s) : OInv s := by
  obtain ⟨hcurr, hzero, hlog, hprog, htype, hopd, hstored, hops⟩ := h
  refine ⟨Follows.init hlog, ?_, ?_, ?_, ?_, ?_, ?_, ?_, ?_, ?_⟩
  · rw [hcurr, hopd]
    rfl
  · rw [hcurr]
    decide
  · have hload : load s.info.mem opTypeOff 8 = load (fun _ => 0) opTypeOff 8 :=
      load_congr fun j _ hj => hzero j (hj.trans (by decide))
    rw [htype, hload]
    decide
  · rw [hopd]
    exact nofun
  · rw [htype]
    decide
  · rw [hstored]
    exact nofun
  · rw [hprog]
    exact nofun
  · intro c e he
    rw [hlog.2.2.2.2.2.2.2.2.2 c] at he
    contradiction
  · intro c g hg
    rw [hops c] at hg
    contradiction

theorem OInv.setOp (h : OInv s) {t : ℕ} (hs : step s (.setOp t) = some s') : OInv s' := by
  simp only [step, Option.ite_none_right_eq_some, Option.some_inj] at hs
  obtain ⟨⟨-, -, ht⟩, rfl⟩ := hs
  refine ⟨h.log, rfl, show 0 < maxOperandSize by decide, ?_, nofun, ht, ?_, h.prog, h.record, h.kept⟩
  · exact load_put_word ht
  · intro st hst
    rcases List.mem_append.mp hst with hst | hst
    · exact h.bounds st hst
    · exact (mem_word hst).2.trans_le (by decide)

/-- The operands go behind those that are there, and stay inside the union. -/
theorem OInv.memcpyOperand (h : OInv s) {bs : List UInt8} (hok : StepOk s (.memcpyOperand bs))
    (hs : step s (.memcpyOperand bs) = some s') : OInv s' := by
  simp only [step, Option.ite_none_right_eq_some, Option.some_inj] at hs
  obtain ⟨⟨-, -, hacc⟩, rfl⟩ := hs
  have hlt : s.info.curr + bs.length < maxOperandSize := lt_of_le_of_ne hacc hok
  have hcurr := h.curr
  refine ⟨h.log, ?_, hlt, ?_, ?_, h.fits, ?_, h.prog, h.record, h.kept⟩
  · simp only [OpInfo.put, hcurr, List.length_append]
  · simp only [OpInfo.put]
    rw [load_put]
    · exact h.opType
    · intro st hst
      exact .inr ((mem_word hst).1.trans' (by simp [sizeofOpEntryHdr, opTypeOff]))
  · intro i hi
    simp only [OpInfo.put]
    by_cases hold : i < s.opd.length
    · rw [put_of_notMem, h.opd i hold, List.getD_append _ _ _ _ hold]
      intro st hst
      have := (mem_word hst).1
      omega
    · rw [List.length_append] at hi
      obtain ⟨k, rfl⟩ := Nat.exists_eq_add_of_le (Nat.not_lt.mp hold)
      rw [tsMemcpyOperand, hcurr, ← Nat.add_assoc, put_word_ofBytes (by omega),
        List.getD_append_right _ _ _ _ (Nat.le_add_right _ _), Nat.add_sub_cancel_left]
  · intro st hst
    rcases List.mem_append.mp hst with hst | hst
    · exact h.bounds st hst
    · have := (mem_word hst).2
      simp only [sizeofUnion]
      omega

/-- The calls of `oplog_enq` store the operation. -/
theorem remaining_oplogFills (h : OInv s) (c localClk wrtClk : ℕ) :
    entryHdr 0 (nvlogEntrySize (sizeofOpEntryHdr + s.info.curr)) ++
      remaining c (oplogFills c s.info localClk wrtClk) =
    opStores ⟨s.opType, localClk, wrtClk, s.opd⟩ := by
  have hopd : load s.info.mem sizeofOpEntryHdr s.opd.length = ofBytes s.opd := by
    refine load_eq_load fun k hk => ?_
    rw [h.opd k hk, Nat.zero_add]
  simp only [remaining, oplogFills, List.flatMap_cons, List.flatMap_nil, if_true, List.append_nil,
    opStores, h.opType, h.curr, hopd]

theorem remaining_of_ne {c c' : ℕ} (hne : c ≠ c') (o : OpInfo) (localClk wrtClk : ℕ) :
    remaining c (oplogFills c' o localClk wrtClk) = [] := by
  simp [remaining, oplogFills, hne.symm]

/-- `nvlog_enq` records an entry with its header, if it returns one. -/
theorem written_enq {p p' : PSt} {n : ℕ} (h : pstep p (.act (.enq n)) = some p') (c : ℕ) {e : Entry}
    (he : p'.written c = some e) :
    (nvlogEnq p.log n).2 ≠ none ∧ c = (nvlogMakeRoom p.log (nvlogEntrySize n)).tailCnt ∧
        e.stores = entryHdr 0 (nvlogEntrySize n) ∨
      ((nvlogEnq p.log n).2 ≠ none → c ≠ (nvlogMakeRoom p.log (nvlogEntrySize n)).tailCnt) ∧
        p.written c = some e := by
  simp only [pstep, pstepWith, Option.ite_none_right_eq_some, Option.some_inj] at h
  obtain ⟨-, rfl⟩ := h
  simp only at he
  rcases hr : (nvlogEnq p.log n).2 with _ | q
  · rw [hr] at he
    exact .inr ⟨fun h => absurd rfl h, he⟩
  · rw [hr] at he
    by_cases hc : c = (nvlogMakeRoom p.log (nvlogEntrySize n)).tailCnt
    · simp only [if_pos hc, Option.some_inj] at he
      exact .inl ⟨Option.some_ne_none q, hc, he ▸ rfl⟩
    · simp only [if_neg hc] at he
      exact .inr ⟨fun _ => hc, he⟩

/-- If `nvlog_enq` returns an entry, it is recorded. -/
theorem written_enq_self {p p' : PSt} {n : ℕ} (h : pstep p (.act (.enq n)) = some p')
    (hr : (nvlogEnq p.log n).2 ≠ none) :
    ∃ e, p'.written (nvlogMakeRoom p.log (nvlogEntrySize n)).tailCnt = some e := by
  simp only [pstep, pstepWith, Option.ite_none_right_eq_some, Option.some_inj] at h
  obtain ⟨-, rfl⟩ := h
  obtain ⟨a, ha⟩ := Option.ne_none_iff_exists'.mp hr
  simp only [ha, if_true]
  exact ⟨_, rfl⟩

/-- A counter that has a record keeps one. -/
theorem written_step {p p' : PSt} {ev : Event} (h : pstep p ev = some p') {c : ℕ} {e : Entry}
    (he : p.written c = some e) : ∃ e', p'.written c = some e' := by
  cases ev with
  | evict q =>
    obtain rfl := Option.some_inj.mp h
    exact ⟨e, he⟩
  | act a =>
    cases a with
    | enq n =>
      simp only [pstep, pstepWith, Option.ite_none_right_eq_some, Option.some_inj] at h
      obtain ⟨-, rfl⟩ := h
      dsimp only
      split
      · exact ⟨e, he⟩
      · split
        · exact ⟨_, rfl⟩
        · exact ⟨e, he⟩
    | fill cnt off w v =>
      simp only [pstep, pstepWith, Option.ite_none_right_eq_some, Option.bind_eq_bind,
        Option.bind_eq_some_iff, Option.some_inj] at h
      obtain ⟨-, e₀, -, -, rfl⟩ := h
      dsimp only
      split
      · exact ⟨_, rfl⟩
      · exact ⟨e, he⟩
    | enqPersist | reclaim =>
      simp only [pstep, pstepWith, Option.ite_none_right_eq_some, Option.some_inj] at h
      obtain ⟨-, rfl⟩ := h
      exact ⟨e, he⟩
    | op =>
      rw [pstep, pstepWith] at h
      split at h
      · contradiction
      · obtain rfl := Option.some_inj.mp h
        exact ⟨e, he⟩

theorem OInv.oplogEnq (h : OInv s) {localClk wrtClk : ℕ}
    (hok : StepOk s (.oplogEnq localClk wrtClk))
    (hs : step s (.oplogEnq localClk wrtClk) = some s') : OInv s' := by
  simp only [step, Option.ite_none_right_eq_some, Option.map_eq_some_iff] at hs
  obtain ⟨⟨hprog, hl, hw⟩, log, hlog, heq⟩ := hs
  have hprog : s.prog = [] := List.isEmpty_iff.mp hprog
  have hok : PStepOk s.log (.act (.enq (sizeofOpEntryHdr + s.info.curr))) := hok
  have hfollows := h.log.step hok hlog
  by_cases hr : (nvlogEnq s.log.log (sizeofOpEntryHdr + s.info.curr)).2 = none
  · rw [if_pos hr] at heq
    subst heq
    refine ⟨hfollows, h.curr, h.limit, h.opType, h.opd, h.fits, h.bounds, h.prog, ?_, ?_⟩
    · intro c e he
      rcases written_enq hlog c he with ⟨hne, -⟩ | ⟨-, he⟩
      · contradiction
      · exact h.record c e he
    · intro c g hg
      obtain ⟨e, he⟩ := h.kept c g hg
      exact written_step hlog he
  · rw [if_neg hr] at heq
    subst heq
    refine ⟨hfollows, h.curr, h.limit, h.opType, h.opd, h.fits, h.bounds, ?_, ?_, ?_⟩
    · intro a ha
      simp only [oplogFills, List.mem_cons, List.not_mem_nil, or_false] at ha
      rcases ha with rfl | rfl | rfl | rfl
      all_goals exact ⟨_, _, _, _, rfl⟩
    · intro c e he
      rcases written_enq hlog c he with ⟨-, rfl, hst⟩ | ⟨hne, he⟩
      · refine ⟨⟨s.opType, localClk, wrtClk, s.opd⟩, if_pos rfl, ⟨h.fits, hl, hw⟩, ?_⟩
        rw [hst]
        exact remaining_oplogFills h _ localClk wrtClk
      · -- an entry that was there is complete
        obtain ⟨g, hg, hfits, hst⟩ := h.record c e he
        refine ⟨g, (if_neg (hne hr)).trans hg, hfits, ?_⟩
        rw [hprog] at hst
        simp only [remaining_of_ne (hne hr)]
        exact hst
    · intro c g hg
      by_cases hc : c = (nvlogMakeRoom s.log.log
          (nvlogEntrySize (sizeofOpEntryHdr + s.info.curr))).tailCnt
      · exact hc ▸ written_enq_self hlog hr
      · obtain ⟨e, he⟩ := h.kept c g ((if_neg hc).symm.trans hg)
        exact written_step hlog he

/-- What neither enqueues nor fills keeps the records. -/
theorem OInv.keep (h : OInv s) {log : PSt} (hlog : Follows log)
    (hw : log.written = s.log.written) : OInv { s with log := log } :=
  ⟨hlog, h.curr, h.limit, h.opType, h.opd, h.fits, h.bounds, h.prog, hw ▸ h.record, hw ▸ h.kept⟩

theorem written_enqPersist {p p' : PSt} (h : pstep p (.act .enqPersist) = some p') :
    p'.written = p.written := by
  simp only [pstep, pstepWith, Option.ite_none_right_eq_some, Option.some_inj] at h
  obtain ⟨-, rfl⟩ := h
  rfl

theorem written_reclaim {p p' : PSt} {k : ℕ} (h : pstep p (.act (.reclaim k)) = some p') :
    p'.written = p.written := by
  simp only [pstep, pstepWith, Option.ite_none_right_eq_some, Option.some_inj] at h
  obtain ⟨-, rfl⟩ := h
  rfl

theorem written_op {p p' : PSt} (h : pstep p (.act .op) = some p') :
    p'.written = p.written := by
  rw [pstep, pstepWith] at h
  split at h
  · contradiction
  · obtain rfl := Option.some_inj.mp h
    rfl

/-- The next store to the entry. -/
theorem OInv.fill (h : OInv s) {c off w v : ℕ} {prog : List PAction}
    (hprog : s.prog = .fill c off w v :: prog) {log : PSt}
    (hs : pstep s.log (.act (.fill c off w v)) = some log) :
    OInv { s with log := log, prog := prog } := by
  have hfollows := h.log.step (e := .act (.fill c off w v)) trivial hs
  have hkept : ∀ c g, s.ops c = some g → ∃ e, log.written c = some e := by
    intro c' g hg
    obtain ⟨e, he⟩ := h.kept c' g hg
    exact written_step hs he
  have hrecord := h.record
  simp only [pstep, pstepWith, Option.ite_none_right_eq_some, Option.bind_eq_bind,
    Option.bind_eq_some_iff, Option.some_inj] at hs
  obtain ⟨-, e₀, he₀, -, rfl⟩ := hs
  rw [hprog] at hrecord
  refine ⟨hfollows, h.curr, h.limit, h.opType, h.opd, h.fits, h.bounds,
    fun a ha => h.prog a ?_, ?_, hkept⟩
  · rw [hprog]
    exact List.mem_cons_of_mem _ ha
  · intro c' e he
    by_cases hc : c' = c
    · subst hc
      simp only [if_true, Option.some_inj] at he
      subst he
      obtain ⟨g, hg, hfits, hst⟩ := hrecord c' e₀ he₀
      refine ⟨g, hg, hfits, ?_⟩
      simpa [remaining] using hst
    · simp only [if_neg hc] at he
      obtain ⟨g, hg, hfits, hst⟩ := hrecord c' e he
      refine ⟨g, hg, hfits, ?_⟩
      simpa [remaining, Ne.symm hc] using hst

theorem OInv.next (h : OInv s) (hok : StepOk s .next) (hs : OpLogging.step s .next = some s') :
    OInv s' := by
  rw [OpLogging.step] at hs
  split at hs
  · obtain ⟨log, hlog, rfl⟩ := Option.map_eq_some_iff.mp hs
    exact h.keep (h.log.step (e := .act .op) hok hlog) (written_op hlog)
  · rename_i a prog htodo hprog
    obtain ⟨log, hlog, rfl⟩ := Option.map_eq_some_iff.mp hs
    obtain ⟨c, off, w, v, rfl⟩ := h.prog a (by rw [hprog]; exact List.mem_cons_self)
    exact h.fill hprog hlog
  · contradiction

theorem OInv.step {a : Action} (h : OInv s) (hok : StepOk s a)
    (hs : OpLogging.step s a = some s') : OInv s' := by
  match a with
  | .setOp t => exact h.setOp hs
  | .memcpyOperand bs => exact h.memcpyOperand hok hs
  | .oplogEnq localClk wrtClk => exact h.oplogEnq hok hs
  | .enqPersist =>
    obtain ⟨-, hs⟩ := Option.ite_none_right_eq_some.mp hs
    obtain ⟨log, hlog, rfl⟩ := Option.map_eq_some_iff.mp hs
    exact h.keep (h.log.step (e := .act .enqPersist) hok hlog) (written_enqPersist hlog)
  | .reclaim k =>
    obtain ⟨-, hs⟩ := Option.ite_none_right_eq_some.mp hs
    obtain ⟨log, hlog, rfl⟩ := Option.map_eq_some_iff.mp hs
    exact h.keep (h.log.step (e := .act (.reclaim k)) trivial hlog) (written_reclaim hlog)
  | .next => exact h.next hok hs
  | .evict p =>
    rw [OpLogging.step] at hs
    obtain ⟨log, hlog, rfl⟩ := Option.map_eq_some_iff.mp hs
    refine h.keep (h.log.step (e := .evict p) trivial hlog) ?_
    obtain rfl := Option.some_inj.mp hlog
    rfl

/-- Between two calls every recorded entry is complete. -/
theorem OInv.logged (h : OInv s) (hq : s.prog = []) {pend : List Entry} {items : List (ℕ × Hdr)}
    (hrec : List.Forall₂ (fun e p => s.log.written p.1 = some e) pend (entries items)) :
    List.Forall₂ (Logged s.ops) pend (entries items) := by
  refine hrec.imp fun e p he => ?_
  obtain ⟨g, hg, hfits, hst⟩ := h.record p.1 e he
  rw [hq] at hst
  exact ⟨g, hg, hfits, (List.append_nil _).symm.trans hst⟩

/-- An operation that was logged is in the log, unless it was taken off. -/
theorem OInv.queued (h : OInv s) {d : Nvm} {ds new : List (ℕ × Hdr)} {pend : List Entry}
    (hi : Idle { s.log with nvm := d } ds new pend) {c : ℕ} {g : Operation}
    (hg : s.ops c = some g) (hc : s.log.headCnt ≤ c) : ∃ p ∈ entries (ds ++ new), p.1 = c := by
  obtain ⟨e, he⟩ := h.kept c g hg
  exact (hi.live c e he).resolve_left (Nat.not_lt.mpr hc)

theorem OInv.roundTrip (h : OInv s) : RoundTrip s := by
  refine ⟨h.limit, h.bounds, ?_, ?_⟩
  · rintro ⟨htodo, hprog⟩
    obtain ⟨d, ds, new, pend, hw, hi⟩ := h.log.idle (List.isEmpty_iff.mpr htodo)
    have hlog : PSt.log { s.log with nvm := d } = s.log.log := by
      simp only [PSt.log, hw.bytes]
    have hret := returnsOps_of_good hi.good (h.logged hprog hi.record)
      fun c g hg hc _ => h.queued hi hg hc
    rw [hlog] at hret
    exact hret
  · rintro ⟨htodo, hprog⟩ D hD
    obtain ⟨d, ds, new, pend, hw, hi⟩ := h.log.idle (List.isEmpty_iff.mpr htodo)
    obtain ⟨hgood, hrec⟩ := hi.good_image (hw.image hD)
    obtain ⟨hhead, htail⟩ := hi.image_counters (hw.image hD)
    refine returnsOps_of_good hgood (h.logged hprog hrec) fun c g hg h1 h2 => ?_
    rw [hhead] at h1
    rw [htail] at h2
    obtain ⟨p, hp, rfl⟩ := h.queued hi hg h1
    -- the open batch is behind the tail in memory
    rw [entries_append] at hp
    refine (List.mem_append.mp hp).elim (fun hp => ⟨p, hp, rfl⟩) fun hp => ?_
    have := (hi.walk_new.mem (mem_entries.mp hp).1).1
    simp only at this h2
    omega

/-- A thread with a log of 256 bytes. -/
def fresh : State where
  info := ⟨0, fun _ => 0⟩
  log := pfresh256
  prog := []
  opType := 0
  opd := []
  stored := []
  ops := fun _ => none

theorem isInit_fresh : IsInit 8 fresh :=
  ⟨rfl, fun _ _ => rfl, isPInit_pfresh256, rfl, rfl, rfl, rfl, fun _ => rfl⟩

/-- An operation with two operands, logged and persisted. -/
def logTwo : List Action :=
  [.setOp 7, .memcpyOperand [1, 2], .memcpyOperand [3], .oplogEnq 5 6]

end TimeStone.ByteLog.OpLogging
