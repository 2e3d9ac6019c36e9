/-
The non-volatile log as bytes (`nvlog.c`).

`Nvlog` looks at the log through its entry headers.  Here the buffer is the array of bytes
that the code has: a header is its fields in memory, every operation is given with the
byte stores it performs, and whether a header is met at all is decided by the bytes that
are found there.  The caller of `nvlog_enq` fills the entry through the pointer it got.

The machine `step` runs `nvlog_enq`, `nvlog_peek_head`, `nvlog_deq` and the caller's
stores in any order and keeps a record of them: `written` are the entries for which
`nvlog_enq` returned a pointer, each with the stores made to it, and `dequeued` what
`nvlog_deq` returned, with the memory behind the pointer at that time.  `Fifo` says that
the log is a queue, in terms of this record.
-/
import TimeStone.Nvlog
import TimeStone.Lib.Bytes
import TimeStone.Lib.Run

namespace TimeStone.ByteLog

open Bytes

/-- `TYPE_BOGUS`. -/
def typeBogus : ℕ := 5

/-- `ts_nvlog_t`, with the bytes that its buffer points to. -/
structure Nvlog where
  headCnt : ℕ
  tailCnt : ℕ
  logSize : ℕ
  buffer : ℕ → UInt8

/-- `nvlog_index`: `cnt & ~mask`, the log size being a power of two. -/
def nvlogIndex (L : Nvlog) (cnt : ℕ) : ℕ := cnt % L.logSize

/-- The field `size` of the header at address `i`. -/
def sizeAt (b : ℕ → UInt8) (i : ℕ) : ℕ := load b (i + 8) 4

/-- The field `type` of the header at address `i`. -/
def typeAt (b : ℕ → UInt8) (i : ℕ) : ℕ := load b (i + 12) 2

/-- The stores that make the header at `i` a filler of `size` bytes. -/
def bogusHdr (i size : ℕ) : List Store :=
  word i sizeofNvlogEntryHdr 0 ++ word (i + 8) 4 size ++ word (i + 12) 2 typeBogus

/-- The stores that make the header at `i` an entry of `size` bytes. -/
def entryHdr (i size : ℕ) : List Store :=
  word i sizeofNvlogEntryHdr 0 ++ word i 8 maxVersion ++ word (i + 8) 4 size

/-- Does the next entry of `entrySize` bytes run over the end of the ring? -/
def nvlogWraps (L : Nvlog) (entrySize : ℕ) : Prop :=
  nvlogIndex L (L.tailCnt + entrySize) < nvlogIndex L L.tailCnt

instance (L : Nvlog) (entrySize : ℕ) : Decidable (nvlogWraps L entrySize) :=
  inferInstanceAs (Decidable (_ < _))

/-- The size of the bogus filler at the tail. -/
def nvlogBogusSize (L : Nvlog) : ℕ := uint (L.logSize - nvlogIndex L L.tailCnt)

/-- What an operation does to the log: its stores to the buffer and the tail it leaves. -/
structure Effect where
  stores : List Store
  tailCnt : ℕ

/-- The log after an operation. -/
def Nvlog.apply (L : Nvlog) (e : Effect) : Nvlog where
  __ := L
  buffer := put L.buffer e.stores
  tailCnt := e.tailCnt

/-- The first half of `nvlog_enq`: append a filler when an entry of `entrySize` bytes would
run over the end of the ring. -/
def nvlogMakeRoom (L : Nvlog) (entrySize : ℕ) : Effect :=
  if nvlogWraps L entrySize then
    ⟨bogusHdr (nvlogIndex L L.tailCnt) (nvlogBogusSize L), L.tailCnt + nvlogBogusSize L⟩
  else ⟨[], L.tailCnt⟩

/-- `nvlog_enq`: its effect, and the address of the entry, `none` (`NULL`) on overflow. -/
def nvlogEnq (L : Nvlog) (objSize : ℕ) : Effect × Option ℕ :=
  let entrySize := nvlogEntrySize objSize
  if entrySize > L.logSize then (⟨[], L.tailCnt⟩, none)
  else
    let r := nvlogMakeRoom L entrySize
    if ulongSub (r.tailCnt + entrySize) L.headCnt > L.logSize then (r, none)
    else
      (⟨r.stores ++ entryHdr (nvlogIndex L r.tailCnt) entrySize, r.tailCnt + entrySize⟩,
        some (nvlogIndex L r.tailCnt))

/-- Move the head counter. -/
def Nvlog.withHead (L : Nvlog) (c : ℕ) : Nvlog := { L with headCnt := c }

/-- `nvlog_peek_head`: the log, whose head skips a filler, and the address of the entry at
the head. -/
def nvlogPeekHead (L : Nvlog) : Nvlog × Option ℕ :=
  if L.headCnt = L.tailCnt then (L, none)
  else
    let i := nvlogIndex L L.headCnt
    if typeAt L.buffer i = typeBogus then
      let L' := L.withHead (L.headCnt + sizeAt L.buffer i)
      if L'.headCnt = L'.tailCnt then (L', none)
      else (L', some (nvlogIndex L' L'.headCnt))
    else (L, some i)

/-- `nvlog_deq`: the log without the entry at the head, and the address of the entry. -/
def nvlogDeq (L : Nvlog) : Nvlog × Option ℕ :=
  if L.headCnt = L.tailCnt then (L, none)
  else
    let i := nvlogIndex L L.headCnt
    let L' := L.withHead (L.headCnt + sizeAt L.buffer i)
    if typeAt L.buffer i = typeBogus then
      if L'.headCnt = L'.tailCnt then (L', none)
      else
        let j := nvlogIndex L' L'.headCnt
        (L'.withHead (L'.headCnt + sizeAt L'.buffer j), some j)
    else (L', some i)

/-! ### The log and its user -/

/-- An entry that `nvlog_enq` returned: its address, the size asked for, and the stores
made to it so far, at addresses relative to its own. -/
structure Entry where
  ptr : ℕ
  objSize : ℕ
  stores : List Store

/-- What `nvlog_deq` returned: the address, and the memory behind it at that time. -/
structure Dequeued where
  ptr : ℕ
  mem : ℕ → UInt8

/-- The log with the record of what was done to it. -/
structure St where
  log : Nvlog
  written : List Entry
  dequeued : List Dequeued

inductive Action
  /-- `nvlog_enq(obj_size)`. -/
  | enq (objSize : ℕ)
  /-- `nvlog_peek_head`. -/
  | peek
  /-- `nvlog_deq`. -/
  | deq
  /-- The caller stores the `w` bytes of `v` at offset `off` of its `k`-th entry. -/
  | fill (k off w v : ℕ)

/-- The stores to an entry that its owner may make: to the field `wrt_clk`, to the bytes
behind the fields of the header (`obj` starts right after them), and to the field `type`,
which is not made that of a filler. -/
def mayFill (objSize off w v : ℕ) : Prop :=
  off + w ≤ 8 ∨ 14 ≤ off ∧ off + w ≤ sizeofNvlogEntryHdr + objSize ∨
    off = 12 ∧ w = 2 ∧ v < 2 ^ 16 ∧ v ≠ typeBogus

instance (objSize off w v : ℕ) : Decidable (mayFill objSize off w v) :=
  inferInstanceAs (Decidable (_ ∨ _))

/-- `nvlog_create` on a store of `2 ^ k` bytes, an `unsigned long`, whose contents are
arbitrary. -/
def IsInit (k : ℕ) (s : St) : Prop :=
  s.log.headCnt = 0 ∧ s.log.tailCnt = 0 ∧ s.log.logSize = 2 ^ k ∧ k < 64 ∧ s.written = [] ∧
    s.dequeued = []

/-- One call.  Entries are filled until they are dequeued. -/
def step (s : St) : Action → Option St
  | .enq n =>
    let r := nvlogEnq s.log n
    some
      { s with
        log := s.log.apply r.1
        written := s.written ++
          (r.2.map fun p => (⟨p, n, entryHdr 0 (nvlogEntrySize n)⟩ : Entry)).toList }
  | .peek => some { s with log := (nvlogPeekHead s.log).1 }
  | .deq =>
    let r := nvlogDeq s.log
    some
      { s with
        log := r.1
        dequeued := s.dequeued ++
          (r.2.map fun p => (⟨p, fun i => s.log.buffer (p + i)⟩ : Dequeued)).toList }
  | .fill k off w v => do
    let e ← s.written[k]?
    if s.dequeued.length ≤ k ∧ mayFill e.objSize off w v then
      some
        { s with
          log := s.log.apply ⟨word (e.ptr + off) w v, s.log.tailCnt⟩
          written := s.written.set k { e with stores := e.stores ++ word off w v } }
    else none

/-- What was dequeued is the entry, with the bytes last stored to it. -/
def Returned (d : Dequeued) (e : Entry) : Prop :=
  d.ptr = e.ptr ∧ Holds d.mem e.stores

/-- The entries that are still in the queue. -/
def St.pending (s : St) : List Entry := s.written.drop s.dequeued.length

/-- The log is a queue.  The condition on the last line is about the calls of `nvlog_enq`
with the sizes that `ok` allows. -/
structure Fifo (ok : Nvlog → ℕ → Prop) (s : St) : Prop where
  /-- The entries come out as they were written, in the order of the calls. -/
  order : List.Forall₂ Returned s.dequeued (s.written.take s.dequeued.length)
  /-- `NULL` is returned only when every entry has come out. -/
  deq_null : (nvlogDeq s.log).2 = none → s.pending = []
  peek_null : (nvlogPeekHead s.log).2 = none → s.pending = []
  /-- The entries lie in the buffer. -/
  bounds : ∀ e ∈ s.pending, e.ptr + nvlogEntrySize e.objSize ≤ s.log.logSize ∧
    sizeofNvlogEntryHdr + e.objSize ≤ nvlogEntrySize e.objSize
  /-- `nvlog_enq` stores to no byte of an entry that is still in the queue. -/
  frame : ∀ n, ok s.log n → ∀ st ∈ (nvlogEnq s.log n).1.stores, ∀ e ∈ s.pending,
    ¬ (e.ptr ≤ st.addr ∧ st.addr < e.ptr + nvlogEntrySize e.objSize)

/-- When `nvlog_enq` keeps the queue: the size does not overflow 32 bits; a filler does
not go over an entry at the head of a full log; and an entry as large as the log starts
where the log starts. -/
def EnqOk (L : Nvlog) (objSize : ℕ) : Prop :=
  objSize + 79 < 2 ^ 32 ∧
    (nvlogEntrySize objSize < L.logSize → nvlogWraps L (nvlogEntrySize objSize) →
      L.tailCnt = L.headCnt + L.logSize →
      typeAt L.buffer (nvlogIndex L L.headCnt) = typeBogus) ∧
    (nvlogEntrySize objSize = L.logSize → L.headCnt = L.tailCnt →
      nvlogIndex L L.tailCnt = 0)

instance (L : Nvlog) (objSize : ℕ) : Decidable (EnqOk L objSize) :=
  inferInstanceAs (Decidable (_ ∧ _ ∧ _))

/-- The calls of a run. -/
def StepOk (s : St) : Action → Prop
  | .enq n => EnqOk s.log n
  | _ => True

instance (s : St) : (a : Action) → Decidable (StepOk s a)
  | .enq n => inferInstanceAs (Decidable (EnqOk s.log n))
  | .peek | .deq | .fill .. => inferInstanceAs (Decidable True)

end TimeStone.ByteLog
