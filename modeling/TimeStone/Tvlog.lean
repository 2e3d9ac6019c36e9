/-
The transient version log (`tvlog.c`): the DRAM ring of a thread's write sets.

A transaction appends a write-set header at its first lock and a copy for every
object it locks; `numObjs` counts the entries behind the header.  As in the
non-volatile log an entry never crosses the end of the ring, so `tvlogAlloc` may
first append a bogus filler, and it pads an entry so that the next write-set
header needs none.

The entry headers are modelled as `hdrs`, by ring index; the type of an entry and
the body of a write set change after the entry is written, so they are kept apart
in `types` and `wss`, also by ring index.  `tvlogReclaimX` reads clocks and states
of copies that other threads write: they enter as the arbitrary predicates of
`Env`.
-/
import TimeStone.Clock
import TimeStone.Lib.Ring

namespace TimeStone

/-- The types of the entries of a transient version log. -/
inductive ObjType
  | wrtSet
  | copy
  | free
  | bogus
  deriving DecidableEq

/-- The sizes in an object header (`ts_obj_hdr_t`): a 32-bit and a 16-bit field. -/
structure ObjHdr where
  objSize : ℕ
  paddingSize : ℕ
  deriving DecidableEq

/-- `get_entry_size`. -/
def getEntrySize (h : ObjHdr) : ℕ := uint (h.objSize + h.paddingSize)

/-- `ts_wrt_set_t`; `wrtClk` is `maxVersion` until the set is committed. -/
@[ext]
structure WrtSet where
  wrtClk : ℕ
  numObjs : ℕ
  startTailCnt : ℕ

/-- `ts_tvlog_t`. -/
structure Tvlog where
  headCnt : ℕ
  tailCnt : ℕ
  prevHeadCnt : ℕ
  hdrs : ℕ → Option ObjHdr
  types : ℕ → ObjType
  wss : ℕ → WrtSet
  curWrtSet : Option ℕ

/-- `tvlog_create`. -/
def tvlogCreate : Tvlog where
  headCnt := 0
  tailCnt := 0
  prevHeadCnt := 0
  hdrs := fun _ => none
  types := fun _ => .bogus
  wss := fun _ => ⟨0, 0, 0⟩
  curWrtSet := none

/-- `tvlog_index`. -/
def tvlogIndex (cnt : ℕ) : ℕ := cnt % tvlogSize

/-- The header at counter `cnt`; `none` where no header starts. -/
def tvlogAt (T : Tvlog) (cnt : ℕ) : Option ObjHdr := T.hdrs (tvlogIndex cnt)

/-- `tvlog_used`. -/
def tvlogUsed (T : Tvlog) : ℕ := T.tailCnt - T.headCnt

/-- `add_extra_padding`: the bytes up to the end of the ring, when a write-set
header behind the entry would cross it and no filler was just inserted. -/
def addExtraPadding (tailCnt entrySize extraSize : ℕ) (bogus : Bool) : ℕ :=
  if bogus = false ∧
      tvlogIndex (tailCnt + entrySize +
        alignUintToCacheline (uint (extraSize + sizeofCpyHdrStruct))) < tvlogIndex tailCnt
  then tvlogSize - tvlogIndex (tailCnt + entrySize)
  else 0

/-- Write an entry header at the tail and `n` bytes in all: no other header
starts inside them any more. -/
def tvlogPut (T : Tvlog) (h : ObjHdr) (type : ObjType) (n : ℕ) : Tvlog where
  __ := T
  hdrs := fun i =>
    if i = tvlogIndex T.tailCnt then some h
    else if tvlogIndex T.tailCnt < i ∧ i < tvlogIndex T.tailCnt + n then none
    else T.hdrs i
  types := Function.update T.types (tvlogIndex T.tailCnt) type

/-- Does an entry of `entrySize` bytes run over the end of the ring? -/
def tvlogWraps (tailCnt entrySize : ℕ) : Prop :=
  tvlogIndex (tailCnt + entrySize) < tvlogIndex tailCnt

instance (tailCnt entrySize : ℕ) : Decidable (tvlogWraps tailCnt entrySize) :=
  inferInstanceAs (Decidable (_ < _))

/-- The size of the bogus filler at the tail. -/
def tvlogBogusSize (tailCnt : ℕ) : ℕ := tvlogSize - tvlogIndex tailCnt

/-- The filler of `tvlog_alloc`.  Its header records the size in the 16-bit
`padding_size`; the tail moves by the size itself. -/
def tvlogPutBogus (T : Tvlog) : Tvlog where
  __ := tvlogPut T ⟨0, ushort (tvlogBogusSize T.tailCnt)⟩ .bogus sizeofCpyHdrStruct
  tailCnt := T.tailCnt + tvlogBogusSize T.tailCnt

/-- The filler part of `tvlog_alloc`. -/
def tvlogMakeRoom (T : Tvlog) (entrySize : ℕ) (bogus : Bool) : Tvlog × Bool :=
  if tvlogWraps T.tailCnt entrySize then (tvlogPutBogus T, true) else (T, bogus)

/-- The header that `tvlog_alloc` writes at the tail; the difference of the entry
size and the object size is taken in 32-bit arithmetic. -/
def tvlogAllocHdr (tailCnt objSize : ℕ) (bogus : Bool) : ObjHdr where
  objSize := objSize
  -- `entry_size - obj_size`, cut to the 16 bits of the field
  paddingSize := ushort (2 ^ 32 + uint (tvlogEntrySize objSize +
    addExtraPadding tailCnt (tvlogEntrySize objSize) sizeofWrtSetStruct bogus) - objSize)

/-- `tvlog_alloc`.  The type is what `tvlog_append_begin` stores right after the
call; the tail stays before the entry. -/
def tvlogAlloc (T : Tvlog) (objSize : ℕ) (bogus : Bool) (type : ObjType) :
    Tvlog × ObjHdr × Bool :=
  let (T₁, bogus₁) := tvlogMakeRoom T (tvlogEntrySize objSize) bogus
  let h := tvlogAllocHdr T₁.tailCnt objSize bogus₁
  (tvlogPut T₁ h type sizeofCpyHdrStruct, h, bogus₁)

/-- The first half of `tvlog_append_begin`: open a write set if there is none. -/
def tvlogOpenWs (T : Tvlog) : Tvlog × Bool :=
  match T.curWrtSet with
  | some _ => (T, false)
  | none =>
    let (T₁, h, bogus) := tvlogAlloc T sizeofWrtSet false .wrtSet
    ({ T₁ with
        wss := Function.update T₁.wss (tvlogIndex T₁.tailCnt) ⟨maxVersion, 0, T₁.tailCnt⟩
        curWrtSet := some (tvlogIndex T₁.tailCnt)
        tailCnt := T₁.tailCnt + getEntrySize h }, bogus)

/-- `tvlog_append_begin`. -/
def tvlogAppendBegin (T : Tvlog) (objSize : ℕ) : Tvlog × ObjHdr × Bool :=
  let (T₁, bogus) := tvlogOpenWs T
  tvlogAlloc T₁ objSize bogus .copy

/-- `tvlog_append_end`, after the object has been copied behind the header. -/
def tvlogAppendEnd (T : Tvlog) (h : ObjHdr) (bogusAllocated : Bool) : Tvlog :=
  let T₁ := tvlogPut T h .copy (sizeofCpyHdrStruct + h.objSize)
  { T₁ with
    tailCnt := T.tailCnt + getEntrySize h
    wss := match T.curWrtSet with
      | none => T.wss
      | some i => Function.update T.wss i
        { T.wss i with numObjs := (T.wss i).numObjs + (if bogusAllocated then 2 else 1) } }

/-- `tvlog_append_begin`, `try_lock_obj` with the given outcome, and on success
`tvlog_append_end`. -/
def tvlogLock (T : Tvlog) (objSize : ℕ) (locked : Bool) : Tvlog :=
  let (T₁, h, bogus) := tvlogAppendBegin T objSize
  if locked then tvlogAppendEnd T₁ h bogus else T₁

/-- `ws_for_each`: the entries of a write set and the counter behind them. -/
def wsForEach (T : Tvlog) : ℕ → ℕ → Option (List (ℕ × ObjHdr) × ℕ)
  | 0, cnt => some ([], cnt)
  | n + 1, cnt => do
    let h ← tvlogAt T cnt
    let (es, d) ← wsForEach T n (cnt + getEntrySize h)
    some ((cnt, h) :: es, d)

/-- `tvlog_at_wss`: the header of the write set at `cnt` and its body; `none` when
the entry there is no write set. -/
def tvlogAtWss (T : Tvlog) (cnt : ℕ) : Option (ObjHdr × WrtSet) := do
  let h ← tvlogAt T cnt
  if T.types (tvlogIndex cnt) = .wrtSet then some (h, T.wss (tvlogIndex cnt)) else none

/-- The entries of a write set, from `ws_iter_begin` on. -/
def wsEntries (T : Tvlog) (h : ObjHdr) (ws : WrtSet) : Option (List (ℕ × ObjHdr) × ℕ) :=
  wsForEach T ws.numObjs (ws.startTailCnt + getEntrySize h)

/-- The copies of the objects in the free set change their type. -/
def markFree (freed : ℕ → Bool) (types : ℕ → ObjType) (es : List (ℕ × ObjHdr)) : ℕ → ObjType :=
  es.foldl (fun types p =>
    if types (tvlogIndex p.1) = .copy ∧ freed p.1 = true
    then Function.update types (tvlogIndex p.1) .free else types) types

/-- `tvlog_commit` with write clock `wrtClk`, for the log itself. -/
def tvlogCommit (T : Tvlog) (wrtClk : ℕ) (freed : ℕ → Bool) : Option Tvlog := do
  let i ← T.curWrtSet
  let (h, ws) ← tvlogAtWss T (T.wss i).startTailCnt
  let (es, _) ← wsEntries T h ws
  some { T with
    types := markFree freed T.types es
    wss := Function.update T.wss i { T.wss i with wrtClk := wrtClk }
    curWrtSet := none }

/-- `tvlog_abort`. -/
def tvlogAbort (T : Tvlog) : Tvlog :=
  match T.curWrtSet with
  | none => T
  | some i => { T with tailCnt := (T.wss i).startTailCnt, curWrtSet := none }

/-- The reclamation modes of a transient version log. -/
inductive TvlogMode
  | bestEffort
  | ckpt
  deriving DecidableEq

/-- What `tvlog_reclaim_x` reads of the copy at a counter and of its object:
whether `wrt_clk_prev` is not older than `ckpt_s_clk`, whether the copy is not
detached and at the borderline of the checkpoint, and whether a freed copy is not
marked yet while the original master is the current one. -/
structure Env where
  prevTooNew : ℕ → Bool
  atBorderline : ℕ → Bool
  enqTombstone : ℕ → Bool

/-- The entries of one write set in the first loop of `tvlog_reclaim_x`.  It
returns whether the set can be reclaimed, and the write clock and size of every
object for which a tombstone was enqueued. -/
def reclaimWs (T : Tvlog) (mode : TvlogMode) (env : Env) (wrtClk : ℕ) :
    List (ℕ × ObjHdr) → Bool × List (ℕ × ℕ)
  | [] => (true, [])
  | (cnt, h) :: es =>
    match T.types (tvlogIndex cnt) with
    | .copy =>
      -- the whole write set stays, with the tombstones that were enqueued before
      if mode = .bestEffort ∧ env.prevTooNew cnt = true then (false, [])
      else reclaimWs T mode env wrtClk es
    | .free =>
      let (ok, sizes) := reclaimWs T mode env wrtClk es
      (ok, if env.enqTombstone cnt then (wrtClk, h.objSize) :: sizes else sizes)
    | _ => reclaimWs T mode env wrtClk es

/-- The entries of one write set in the second loop of `tvlog_reclaim_x`. -/
def ckptWs (T : Tvlog) (mode : TvlogMode) (env : Env) (wrtClk : ℕ) :
    List (ℕ × ObjHdr) → Bool × List (ℕ × ℕ)
  | [] => (true, [])
  | (cnt, h) :: es =>
    if T.types (tvlogIndex cnt) = .copy ∧ env.atBorderline cnt = true then
      match mode with
      -- `stop_checkpoint_step2`: a best-effort reclamation does not write to the checkpoint log
      | .bestEffort => (false, [])
      | .ckpt =>
        let (ok, sizes) := ckptWs T mode env wrtClk es
        (ok, (wrtClk, h.objSize) :: sizes)
    else ckptWs T mode env wrtClk es

/-- A loop of `tvlog_reclaim_x` over whole write sets: it stops at a counter for
which `stop` says so, at a write set that is not committed or for which `tooNew`
says so, and at a write set that `body` turns down.  It returns where it stops,
and the write clocks and sizes of the objects `body` enqueued. -/
def wsLoop (T : Tvlog) (stop : ℕ → Bool) (tooNew : ℕ → Bool)
    (body : ℕ → List (ℕ × ObjHdr) → Bool × List (ℕ × ℕ)) :
    ℕ → ℕ → Option (ℕ × List (ℕ × ℕ))
  | 0, _ => none
  | fuel + 1, startCnt =>
    if T.tailCnt ≤ startCnt ∨ stop startCnt = true then some (startCnt, [])
    else do
      let (h, ws) ← tvlogAtWss T startCnt
      if tooNew ws.wrtClk = true ∨ ws.wrtClk = maxVersion then some (startCnt, [])
      else do
        let (es, cnt) ← wsEntries T h ws
        match body ws.wrtClk es with
        | (false, sizes) => some (startCnt, sizes)
        | (true, sizes) => do
          let (d, sizes') ← wsLoop T stop tooNew body fuel cnt
          some (d, sizes ++ sizes')

/-- The first loop of `tvlog_reclaim_x`, which reclaims up to `prev_head_cnt`. -/
def tvlogReclaimLoop (T : Tvlog) (mode : TvlogMode) (env : Env) :
    ℕ → ℕ → Option (ℕ × List (ℕ × ℕ)) :=
  wsLoop T (fun cnt => decide (cnt = T.prevHeadCnt)) (fun _ => false) (reclaimWs T mode env)

/-- The second loop of `tvlog_reclaim_x`, which checkpoints up to `ckptSClk`. -/
def tvlogCkptLoop (B : ℕ) (T : Tvlog) (mode : TvlogMode) (env : Env) (ckptSClk : ℕ) :
    ℕ → ℕ → Option (ℕ × List (ℕ × ℕ)) :=
  wsLoop T (fun _ => false) (fun wrtClk => decide (gteClock B wrtClk ckptSClk))
    (ckptWs T mode env)

/-- `tvlog_reclaim_x`: the log afterwards, and the write clocks and sizes of the
objects enqueued to the checkpoint log, in order. -/
def tvlogReclaimX (B : ℕ) (T : Tvlog) (mode : TvlogMode) (env : Env) (ckptSClk : ℕ) :
    Option (Tvlog × List (ℕ × ℕ)) := do
  let (newHeadCnt, sizes) ← tvlogReclaimLoop T mode env (tvlogUsed T + 1) T.headCnt
  -- the second loop starts where the first one stopped, which may be before `prev_head_cnt`
  let (startCnt, sizes') ← tvlogCkptLoop B T mode env ckptSClk (tvlogUsed T + 1) newHeadCnt
  some ({ T with headCnt := newHeadCnt, prevHeadCnt := startCnt }, sizes ++ sizes')

end TimeStone
