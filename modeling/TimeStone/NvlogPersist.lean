/-
The non-volatile log on persistent memory (`nvlog.c`, `oplog.c`, `ckptlog.c`).

The buffer of the log is a sequence of cache lines; `head_cnt` and `tail_cnt` of
`ts_nvlog_store_t` are cells of their own.  The counters of `ts_nvlog_t` are in DRAM and
are gone after a crash.  A call computes its stores, calls of `clwb` and fences from the DRAM
state, and a step performs them one after the other, so that a crash may come before each
of them.

There are two memories below the log.  `clwb` of `arch.h` writes back the stack slot of its
parameter, so that a line of the log reaches the memory only when the cache evicts it
(`pstep`).  The calls are written for a memory where `clwb` writes back the line that it is
called for (`pstepIdeal`).

The calls come in the order in which the code makes them:

* an entry is enqueued and filled (`oplog_enq`, `ckptlog_enq`), and a batch of them is made
  durable by `nvlog_enq_persist` and the fence that follows it (`smp_wmb` in `tvlog_commit`,
  the locked store that ends `tvlog_reclaim`);
* `oplog_reclaim` and `ckptlog_reclaim` take entries off the head while no batch is open,
  and persist the new head.  The locked instruction after it, the store that ends
  `ckptlog_reclaim` or the one that begins the next transaction, comes before the log is
  used again.  The second loop of `ckptlog_reclaim` moves the head in DRAM and sets it back.

`Image` is what a crash leaves, and `Decodes` says that `nvlog_load` finds whole entries
there.
-/
import TimeStone.NvlogFifo
import TimeStone.Lib.Pmem

namespace TimeStone.ByteLog

open Bytes Pmem

/-- What is written back as a whole: a line of the buffer, or a counter of
`ts_nvlog_store_t`. -/
inductive Place
  | line (k : ℕ)
  | headCnt
  | tailCnt

/-- What `ts_nvlog_store_t` and its buffer hold, in the cache and in memory. -/
structure Nvm where
  /-- The lines of the buffer, each with the bytes at its offsets. -/
  line : ℕ → Cell (ℕ → UInt8)
  headCnt : Cell ℕ
  tailCnt : Cell ℕ
  /-- The places that `clwb` was called for since the last fence. -/
  asked : List Place

/-- The bytes of the buffer, as they are read through the cache. -/
def Nvm.bytes (m : Nvm) (a : ℕ) : UInt8 :=
  (m.line (a / cacheLineSize)).cur (a % cacheLineSize)

/-- An instruction of a call. -/
inductive Op
  | store (s : Store)
  | clwb (line : ℕ)
  | fence
  | storeHead (cnt : ℕ)
  | clwbHead
  | storeTail (cnt : ℕ)
  | clwbTail
  deriving DecidableEq

/-- Store a byte to the buffer. -/
def Nvm.storeByte (m : Nvm) (s : Store) : Nvm where
  __ := m
  line := fun i =>
    if i = s.addr / cacheLineSize then
      (m.line i).store fun j =>
        if j = s.addr % cacheLineSize then s.byte else (m.line i).cur j
    else m.line i

/-- Perform an instruction.  The operand of the instruction in `clwb(p)` is the parameter `p`
itself (`"+m"(p)`), so that the line of its stack slot is written back, and no line of the log:
all that is left of the call is that it was made. -/
def Nvm.exec (m : Nvm) : Op → Nvm
  | .store s => m.storeByte s
  | .clwb k => { m with asked := .line k :: m.asked }
  | .fence => { m with asked := [] }
  | .storeHead c => { m with headCnt := m.headCnt.store c }
  | .clwbHead => { m with asked := .headCnt :: m.asked }
  | .storeTail c => { m with tailCnt := m.tailCnt.store c }
  | .clwbTail => { m with asked := .tailCnt :: m.asked }

/-- Perform an instruction on the memory that the log is written for, where `clwb` writes back
what it is called for. -/
def Nvm.execIdeal (m : Nvm) : Op → Nvm
  | .store s => m.storeByte s
  | .clwb k => { m with line := fun i => if i = k then (m.line i).clwb else m.line i }
  | .fence => ⟨fun i => (m.line i).fence, m.headCnt.fence, m.tailCnt.fence, m.asked⟩
  | .storeHead c => { m with headCnt := m.headCnt.store c }
  | .clwbHead => { m with headCnt := m.headCnt.clwb }
  | .storeTail c => { m with tailCnt := m.tailCnt.store c }
  | .clwbTail => { m with tailCnt := m.tailCnt.clwb }

/-- The cache writes a place back by itself. -/
def Nvm.evict (m : Nvm) : Place → Nvm
  | .line k => { m with line := fun i => if i = k then (m.line i).evict else m.line i }
  | .headCnt => { m with headCnt := m.headCnt.evict }
  | .tailCnt => { m with tailCnt := m.tailCnt.evict }

/-- The memory holds the current contents of a place. -/
def Nvm.InMemory (m : Nvm) : Place → Prop
  | .line k => (m.line k).old = []
  | .headCnt => m.headCnt.old = []
  | .tailCnt => m.tailCnt.old = []

instance (m : Nvm) : (p : Place) → Decidable (m.InMemory p)
  | .line k => inferInstanceAs (Decidable ((m.line k).old = []))
  | .headCnt => inferInstanceAs (Decidable (m.headCnt.old = []))
  | .tailCnt => inferInstanceAs (Decidable (m.tailCnt.old = []))

/-- The state of the log and of the thread that works on it. -/
structure PSt where
  headCnt : ℕ
  tailCnt : ℕ
  logSize : ℕ
  nvm : Nvm
  /-- The instructions of the current call that are still to come. -/
  todo : List Op
  /-- Entries were enqueued since the last `nvlog_enq_persist`. -/
  dirty : Bool
  /-- The entry that was enqueued at a counter, with the stores made to it. -/
  written : ℕ → Option Entry

/-- The log as the thread sees it. -/
def PSt.log (s : PSt) : Nvlog := ⟨s.headCnt, s.tailCnt, s.logSize, s.nvm.bytes⟩

/-- The lines of a loop `for (i = from; i < to; i += TS_CACHE_LINE_SIZE)`. -/
def linesBetween (a b : ℕ) : List ℕ :=
  (List.range ((b - a + (cacheLineSize - 1)) / cacheLineSize)).map fun k =>
    (a + cacheLineSize * k) / cacheLineSize

/-- `nvlog_enq_persist`. -/
def nvlogEnqPersist (L : Nvlog) (storeTailCnt : ℕ) : List Op :=
  let vTailCnt := uint (nvlogIndex L L.tailCnt)
  let nvTailCnt := uint (nvlogIndex L storeTailCnt)
  -- `case 0`, which an exactly full batch takes as well
  if nvTailCnt = vTailCnt then []
  else
    -- `case 1` and `case 2`: the batch, or its two parts around the end of the ring
    (if nvTailCnt < vTailCnt then linesBetween nvTailCnt vTailCnt
      else linesBetween nvTailCnt L.logSize ++ linesBetween 0 vTailCnt).map .clwb ++
    [.fence, .storeTail L.tailCnt, .clwbTail]

/-- `nvlog_deq_persist`. -/
def nvlogDeqPersist (L : Nvlog) (storeHeadCnt : ℕ) : List Op :=
  if storeHeadCnt = L.headCnt then [] else [.storeHead L.headCnt, .clwbHead]

/-- The loop of `oplog_reclaim` and the first one of `ckptlog_reclaim`: take `k` entries off
the head, or all of them. -/
def reclaimLoop : ℕ → Nvlog → Nvlog
  | 0, L => (nvlogPeekHead L).1
  | k + 1, L =>
    match nvlogPeekHead L with
    | (L', none) => L'
    | (L', some _) => reclaimLoop k (nvlogDeq L').1

inductive PAction
  /-- `nvlog_enq(obj_size)`. -/
  | enq (objSize : ℕ)
  /-- Fill the entry at counter `cnt`: store the `w` bytes of `v` at offset `off`. -/
  | fill (cnt off w v : ℕ)
  /-- `nvlog_enq_persist` and the fence after it. -/
  | enqPersist
  /-- `oplog_reclaim` or `ckptlog_reclaim`, which stops after `k` entries. -/
  | reclaim (k : ℕ)
  /-- The next instruction of the current call. -/
  | op

/-- `nvlog_create` on a store of `2 ^ k` bytes, whose stores to the counters have reached the
memory.  The buffer is not initialised. -/
def IsPInit (k : ℕ) (s : PSt) : Prop :=
  s.headCnt = 0 ∧ s.tailCnt = 0 ∧ s.logSize = 2 ^ k ∧ k < 32 ∧
    s.nvm.headCnt = .mk' 0 ∧ s.nvm.tailCnt = .mk' 0 ∧ s.nvm.asked = [] ∧ s.todo = [] ∧
    s.dirty = false ∧ ∀ c, s.written c = none

/-- One call or one instruction, which `exec` performs. -/
def pstepWith (exec : Nvm → Op → Nvm) (s : PSt) : PAction → Option PSt
  | .enq n =>
    if s.todo.isEmpty then
      let r := nvlogEnq s.log n
      some
        { s with
          tailCnt := r.1.tailCnt
          todo := r.1.stores.map .store
          dirty := true
          written := fun c =>
            match r.2 with
            | none => s.written c
            | some p =>
              -- the entry is behind the filler, if there is one
              if c = (nvlogMakeRoom s.log (nvlogEntrySize n)).tailCnt then
                some ⟨p, n, entryHdr 0 (nvlogEntrySize n)⟩
              else s.written c }
    else none
  | .fill cnt off w v =>
    if s.todo.isEmpty then do
      let e ← s.written cnt
      if s.nvm.tailCnt.cur ≤ cnt ∧ mayFill e.objSize off w v then
        some
          { s with
            todo := (word (e.ptr + off) w v).map .store
            written := fun c =>
              if c = cnt then some { e with stores := e.stores ++ word off w v }
              else s.written c }
      else none
    else none
  | .enqPersist =>
    if s.todo.isEmpty then
      some
        { s with
          -- the counter in the store is read through the cache
          todo := nvlogEnqPersist s.log s.nvm.tailCnt.cur ++ [.fence]
          dirty := false }
    else none
  | .reclaim k =>
    if s.todo.isEmpty ∧ s.dirty = false then
      let L := reclaimLoop k s.log
      some
        { s with
          headCnt := L.headCnt
          todo := nvlogDeqPersist L s.nvm.headCnt.cur ++ [.fence] }
    else none
  | .op =>
    match s.todo with
    | [] => none
    | o :: os => some { s with nvm := exec s.nvm o, todo := os }

/-- The log on the memory that it is written for. -/
abbrev pstepIdeal : PSt → PAction → Option PSt := pstepWith Nvm.execIdeal

/-- A step of the log and of the cache below it. -/
inductive Event
  | act (a : PAction)
  /-- The cache writes a place back. -/
  | evict (p : Place)

/-- One call, one instruction, or a write-back of the cache. -/
def pstep (s : PSt) : Event → Option PSt
  | .act a => pstepWith Nvm.exec s a
  | .evict p => some { s with nvm := s.nvm.evict p }

/-- What a crash may leave: every line, and each of the counters, with any of its possible
contents.  It is the log as `nvlog_load` rebuilds it. -/
def Image (s : PSt) (D : Nvlog) : Prop :=
  D.logSize = s.logSize ∧ s.nvm.headCnt.Durable D.headCnt ∧ s.nvm.tailCnt.Durable D.tailCnt ∧
    ∀ i, ∃ c, (s.nvm.line i).Durable c ∧
      ∀ j < cacheLineSize, D.buffer (cacheLineSize * i + j) = c j

/-- The log decodes from its head to its tail as fillers and entries that were enqueued, with
the bytes that were stored to them. -/
def Decodes (written : ℕ → Option Entry) (D : Nvlog) : Prop :=
  ∃ items, Walk D D.headCnt items D.tailCnt ∧
    ∀ p ∈ items, p.2.bogus = false →
      ∃ e, written p.1 = some e ∧ p.2.size = nvlogEntrySize e.objSize ∧
        Holds (fun i => D.buffer (p.1 % D.logSize + i)) e.stores

/-- When a call keeps the log decodable: the size of an entry does not overflow 32 bits; a
filler is not written in a log that is exactly full; an entry as large as the log starts
where the log starts; and a batch is shorter than the log. -/
def CallOk (s : PSt) : PAction → Prop
  | .enq n =>
    n + 79 < 2 ^ 32 ∧
      (nvlogEntrySize n < s.logSize → nvlogWraps s.log (nvlogEntrySize n) →
        s.tailCnt ≠ s.headCnt + s.logSize) ∧
      (nvlogEntrySize n = s.logSize → s.headCnt = s.tailCnt → nvlogIndex s.log s.tailCnt = 0)
  | .enqPersist => s.tailCnt - s.nvm.tailCnt.cur < s.logSize
  | _ => True

instance (s : PSt) : (a : PAction) → Decidable (CallOk s a)
  | .enq _ => inferInstanceAs (Decidable (_ ∧ _ ∧ _))
  | .enqPersist => inferInstanceAs (Decidable (_ < _))
  | .fill .. | .reclaim _ | .op => inferInstanceAs (Decidable True)

/-- When a fence is next, the cache has written back everything that `clwb` was called for. -/
def FenceOk (s : PSt) : Prop :=
  s.todo.head? = some .fence → ∀ p ∈ s.nvm.asked, s.nvm.InMemory p

instance (s : PSt) : Decidable (FenceOk s) := inferInstanceAs (Decidable (_ → _))

/-- The calls and the fences of a run. -/
def PStepOk (s : PSt) : Event → Prop
  | .act .op => FenceOk s
  | .act a => CallOk s a
  | .evict _ => True

instance (s : PSt) : (e : Event) → Decidable (PStepOk s e)
  | .act .op => inferInstanceAs (Decidable (FenceOk s))
  | .act (.enq n) => inferInstanceAs (Decidable (CallOk s (.enq n)))
  | .act .enqPersist => inferInstanceAs (Decidable (CallOk s .enqPersist))
  | .act (.fill ..) | .act (.reclaim _) | .evict _ => inferInstanceAs (Decidable True)

end TimeStone.ByteLog
