/-
An abort undoes its transaction (`ts_abort`, `tvlog_abort`, `ws_unlock_abort`).

A transaction locks objects, frees some and then aborts, right after a `_ts_try_lock` that
has failed or without one; other threads work on the volatile headers all the time.  The
abort finds the locks by the walk over the write set, so the log is kept as bytes here, with
a volatile header for every object.  What the headers should be is what the other threads
alone have made of those at `ts_begin` (`otherVhdrs`).

The transaction may start in any state of the log.  That the write set is walked rightly
needs the headers to record what they span: a filler of 64 KB and more does not fit
`padding_size`.  And the abort does not bring back what the write set has overwritten: as
`tvlog_alloc` does not look at the head, the copies in front of the transaction are what they
were only if the write set fits behind them.

* `TxInv` — what holds between two calls, for the walk that an abort would take;
* `Front` — the log in front of the transaction, where the other copies of the chains are;
* `wsUnlockAbort_spec` — the walk releases the locks of its entries and nothing else;
* `undone_iff` — when the write set fits the free part of the ring and its fillers fit their
  header, the abort undoes the transaction exactly if `ts_free` came with a lock;
* `lock_behind_long_filler` — an object behind a filler of 64 KB stays locked.
-/
import TimeStone.TvlogParse
import TimeStone.ThreadApi
import TimeStone.Vhdr
import TimeStone.Lib.Bytes

namespace TimeStone.TvlogAbort

open ThreadApi (LockReturn)
open TvlogParse (openStart openEntries)
open Vhdr (ActVhdr Act)
open Bytes (copy)

/-! ### The volatile headers -/

/-- A header as `alloc_act_vhdr` makes it. -/
def emptyVhdr (o : ℕ) : ActVhdr := ⟨none, none, .master o, .master o, maxVersion⟩

/-- The volatile headers, by the address of the original object; `none` where
`try_alloc_act_vhdr` has not been called yet. -/
abbrev Vhdrs := ℕ → Option ActVhdr

/-- The header of an object, which is allocated on demand. -/
def vhdrOf (H : Vhdrs) (o : ℕ) : ActVhdr := (H o).getD (emptyVhdr o)

/-- Store `p_lock` of a header. -/
def withLock (v : ActVhdr) (pLock : Option ℕ) : ActVhdr := { v with pLock := pLock }

@[simp]
theorem pLock_withLock (v : ActVhdr) (l : Option ℕ) : (withLock v l).pLock = l := rfl

@[simp]
theorem withLock_withLock (v : ActVhdr) (l l' : Option ℕ) :
    withLock (withLock v l) l' = withLock v l' := rfl

/-- Storing what is there changes nothing. -/
theorem withLock_self {v : ActVhdr} {l : Option ℕ} (h : v.pLock = l) : withLock v l = v := by
  subst h
  rfl

@[simp]
theorem vhdrOf_of_some {H : Vhdrs} {o : ℕ} {v : ActVhdr} (h : H o = some v) :
    vhdrOf H o = v := by
  rw [vhdrOf, h, Option.getD_some]

/-- What other threads do with the headers: they allocate one, lock and unlock an object with
a copy of theirs, and store the other fields when they commit, detach a copy, checkpoint or
write back. -/
inductive Other
  | allocVhdr (o : ℕ)
  | lock (o copy : ℕ)
  | unlock (o copy : ℕ)
  | store (o : ℕ) (pCopy : Option ℕ) (npCurAct : Act) (tombstoneClk : ℕ)

/-- The object whose header is written. -/
def Other.obj : Other → ℕ
  | .allocVhdr o | .lock o _ | .unlock o _ | .store o _ _ _ => o

/-- The header afterwards. -/
def Other.write (v : ActVhdr) : Other → ActVhdr
  | .allocVhdr _ => v
  | .lock _ copy => withLock v (some copy)
  | .unlock _ _ => withLock v none
  | .store _ pCopy npCurAct tombstoneClk =>
    { v with pCopy := pCopy, npCurAct := npCurAct, tombstoneClk := tombstoneClk }

/-- The headers after another thread's step. -/
def otherStep (H : Vhdrs) (a : Other) : Vhdrs :=
  Function.update H a.obj (some (a.write (vhdrOf H a.obj)))

/-! ### The thread -/

/-- A thread in a transaction, its log, which starts at the address `buffer`, and the volatile
headers.  `mem` are the bytes of the ring, `pActVhdr` is the field of the copy at a ring index,
as the object; `failed` says that a `_ts_try_lock` has failed. -/
structure State where
  thread : ThreadApi.Thread
  tvlog : Tvlog
  buffer : ℕ
  mem : ℕ → UInt8
  pActVhdr : ℕ → Option ℕ
  vhdrs : Vhdrs
  failed : Bool

/-- The address of the copy at a ring index, behind its header. -/
def copyPtr (buffer i : ℕ) : ℕ := buffer + i + sizeofCpyHdrStruct

/-- `ts_begin`, after the reclamation of the logs. -/
def tsBegin (s : State) : State where
  __ := s
  thread := ThreadApi.tsBegin s.thread
  failed := false

/-- `try_alloc_act_vhdr`, which succeeds, where there is no header. -/
def allocVhdr (s : State) (o : ℕ) : State where
  __ := s
  vhdrs := Function.update s.vhdrs o (some (vhdrOf s.vhdrs o))

/-- Store `src` to some parts of the ring, each a first index and a length. -/
def storeParts (mem src : ℕ → UInt8) (ps : List (ℕ × ℕ)) : ℕ → UInt8 :=
  ps.foldl (fun mem p => copy mem p.1 p.2 fun k => src (p.1 + k)) mem

/-- The header of the filler of `tvlog_alloc`. -/
def bogusPart (tailCnt entrySize : ℕ) : List (ℕ × ℕ) :=
  if tvlogWraps tailCnt entrySize then [(tvlogIndex tailCnt, sizeofCpyHdrStruct)] else []

/-- What `tvlog_append_begin` stores to: a new write set, fillers, and the header of the
copy. -/
def appendBeginParts (T : Tvlog) (size : ℕ) : List (ℕ × ℕ) :=
  (if T.curWrtSet = none
    then bogusPart T.tailCnt wsEntrySize ++
      [(tvlogIndex (tvlogMakeRoom T wsEntrySize false).1.tailCnt, sizeofWrtSetStruct)]
    else []) ++
  (bogusPart (tvlogOpenWs T).1.tailCnt (tvlogEntrySize size) ++
    [(tvlogIndex (tvlogAppendBegin T size).1.tailCnt, sizeofCpyHdrStruct)])

/-- The header of the copy and the object behind it, and `num_objs` of the write set. -/
def appendEndParts (T : Tvlog) (h : ObjHdr) : List (ℕ × ℕ) :=
  (tvlogIndex T.tailCnt, sizeofCpyHdrStruct + h.objSize) ::
    T.curWrtSet.toList.map fun i => (i + 72, 4)

/-- `tvlog_append_begin` for the object `o`. -/
def appendBegin (s : State) (o size : ℕ) (src : ℕ → UInt8) : State × ObjHdr × Bool :=
  let (T, h, bogus) := tvlogAppendBegin s.tvlog size
  ({ s with
      tvlog := T
      mem := storeParts s.mem src (appendBeginParts s.tvlog size)
      pActVhdr := Function.update s.pActVhdr (tvlogIndex T.tailCnt) (some o) }, h, bogus)

/-- `try_lock_obj` succeeds, the object is copied, and `tvlog_append_end`. -/
def appendEnd (s : State) (o : ℕ) (h : ObjHdr) (bogus : Bool) (src : ℕ → UInt8) : State where
  __ := s
  tvlog := tvlogAppendEnd s.tvlog h bogus
  mem := storeParts s.mem src (appendEndParts s.tvlog h)
  vhdrs := Function.update s.vhdrs o (some
    (withLock (vhdrOf s.vhdrs o) (some (copyPtr s.buffer (tvlogIndex s.tvlog.tailCnt)))))

/-- `_ts_try_lock` up to the given return point; with size 0 it is `_ts_try_lock_const`.  When
`try_lock_obj` takes the lock and finds another `p_copy`, it releases it again, which counts
as a lost compare-and-swap.  `src` are the bytes that the call leaves where it stores. -/
def tsTryLock (s : State) (o size : ℕ) (r : LockReturn) (src : ℕ → UInt8) : State :=
  let s := { s with thread := ThreadApi.tsTryLock s.thread r, failed := decide (r ≠ .locked) }
  match r with
  | .staleRead | .noVhdr => s
  | .isLocked | .tooNew => allocVhdr s o
  | .lostCas => (appendBegin (allocVhdr s o) o size src).1
  | .locked =>
    let (s, h, bogus) := appendBegin (allocVhdr s o) o size src
    appendEnd s o h bogus src

/-- The compare-and-swap that releases the lock of the copy at index `i`. -/
def unlockCopy (s : State) (i : ℕ) : State :=
  match s.pActVhdr i with
  | none => s
  | some o =>
    if (vhdrOf s.vhdrs o).pLock = some (copyPtr s.buffer i)
    then { s with vhdrs := Function.update s.vhdrs o (some (withLock (vhdrOf s.vhdrs o) none)) }
    else s

/-- The body of the loop of `ws_unlock_abort`. -/
def unlockEntry (s : State) (p : ℕ × ObjHdr) : State :=
  match s.tvlog.types (tvlogIndex p.1) with
  | .copy | .free => unlockCopy s (tvlogIndex p.1)
  | _ => s

/-- `ws_unlock_abort`. -/
def wsUnlockAbort : State → List (ℕ × ObjHdr) → State := List.foldl unlockEntry

/-- `ts_abort`, without the reclamation at its end.  `none` when the walk comes to a place
where no header starts. -/
def tsAbort (s : State) : Option State :=
  let s := { s with thread := ThreadApi.tsAbort s.thread }
  match s.tvlog.curWrtSet with
  | none => some s
  | some _ => do
    let es ← openEntries s.tvlog
    some { wsUnlockAbort s es with tvlog := tvlogAbort s.tvlog }

/-- What happens between `ts_begin` and `ts_abort`: the calls of the transaction, the steps of
other threads, which also store to the copies of this log (`wrt_clk_prev`, when they commit
over one), and the QP thread that reclaims the log. -/
inductive Op
  | tryLock (o size : ℕ) (r : LockReturn) (src : ℕ → UInt8)
  | free (pAct : ℕ)
  | other (a : Other)
  | storeCopy (i : ℕ) (byte : UInt8)
  | reclaim (mode : TvlogMode) (env : Env) (ckptSClk : ℕ)

/-- The guards of another thread's compare-and-swaps.  It releases a lock with the address of
a copy of its own, which is not in this log. -/
def OtherEnabled (s : State) : Other → Prop
  | .allocVhdr _ | .store _ _ _ _ => True
  | .lock o _ => (vhdrOf s.vhdrs o).pLock = none
  | .unlock o copy => (vhdrOf s.vhdrs o).pLock = some copy ∧
      (copy < s.buffer ∨ s.buffer + tvlogSize ≤ copy)

instance (s : State) : ∀ a, Decidable (OtherEnabled s a)
  | .allocVhdr _ | .store _ _ _ _ => inferInstanceAs (Decidable True)
  | .lock _ _ => inferInstanceAs (Decidable (_ = _))
  | .unlock _ _ => inferInstanceAs (Decidable (_ ∧ _))

/-- One step inside the transaction.  After a failed lock no call comes but `ts_abort`. -/
def step (B : ℕ) (s : State) : Op → Option State
  | .tryLock o size r src =>
    if s.failed = false ∧ (r = .locked → (vhdrOf s.vhdrs o).pLock = none)
    then some (tsTryLock s o size r src) else none
  | .free pAct =>
    if s.failed = false then some { s with thread := ThreadApi.tsFree s.thread pAct } else none
  | .other a =>
    if OtherEnabled s a then some { s with vhdrs := otherStep s.vhdrs a } else none
  | .storeCopy i byte => some { s with mem := Function.update s.mem i byte }
  | .reclaim mode env ckptSClk => do
    let (T, _) ← tvlogReclaimX B s.tvlog mode env ckptSClk
    some { s with tvlog := T }

/-! ### Undoing a transaction -/

/-- The headers after the steps of the other threads alone. -/
def otherVhdrs (H : Vhdrs) (ops : List Op) : Vhdrs :=
  ops.foldl (fun H op => match op with
    | .other a => otherStep H a
    | _ => H) H

/-- The bytes of the ring after the stores of the other threads alone. -/
def otherMem (M : ℕ → UInt8) (ops : List Op) : ℕ → UInt8 :=
  ops.foldl (fun M op => match op with
    | .storeCopy i byte => Function.update M i byte
    | _ => M) M

/-- The object that the step locks. -/
def Op.locked : Op → Option ℕ
  | .tryLock o _ .locked _ => some o
  | _ => none

/-- The call of the thread. -/
def Op.call : Op → Option ThreadApi.Call
  | .tryLock _ _ r _ => some (.tryLock r)
  | .free pAct => some (.free pAct)
  | .other _ | .storeCopy _ _ | .reclaim _ _ _ => none

/-- The transaction as the thread sees it. -/
def abortedTx (ops : List Op) : ThreadApi.Tx := ⟨ops.filterMap Op.call, .abort⟩

/-- Between two transactions: the log consists of committed write sets. -/
structure Idle (s : State) : Prop where
  thread : ThreadApi.Clean s.thread
  curWrtSet : s.tvlog.curWrtSet = none
  log : TvlogInv s.tvlog

/-- What is not reclaimed of the log of `s₀` is in the log of `s`: the entries, their objects,
and the bytes `M`. -/
structure LogKept (s₀ s : State) (M : ℕ → UInt8) : Prop where
  entries : SameBytes s₀.tvlog s.tvlog s.tvlog.headCnt s₀.tvlog.tailCnt
  objects : ∀ c, s.tvlog.headCnt ≤ c → c < s₀.tvlog.tailCnt →
    s.pActVhdr (tvlogIndex c) = s₀.pActVhdr (tvlogIndex c)
  bytes : ∀ c, s.tvlog.headCnt ≤ c → c < s₀.tvlog.tailCnt →
    s.mem (tvlogIndex c) = M (tvlogIndex c)

/-- The abort, from `s` to `s'`, has undone the transaction `ops` that began in `s₀`. -/
structure Undone (s₀ : State) (ops : List Op) (s s' : State) : Prop where
  /-- The headers are as the other threads alone have left them, but for new empty ones. -/
  vhdrs : ∀ o, s'.vhdrs o = otherVhdrs s₀.vhdrs ops o ∨
    otherVhdrs s₀.vhdrs ops o = none ∧ s'.vhdrs o = some (emptyVhdr o)
  /-- No lock is released but those that the transaction has taken. -/
  locks : ∀ o, o ∉ ops.filterMap Op.locked → s'.vhdrs o = s.vhdrs o
  /-- The copies that the chains lead to, in front of the transaction, are as the stores of the
  other threads alone have left them. -/
  copies : LogKept s₀ s' (otherMem s₀.mem ops)
  log : TvlogInv s'.tvlog
  tailCnt : s'.tvlog.tailCnt = s₀.tvlog.tailCnt
  curWrtSet : s'.tvlog.curWrtSet = none
  /-- `tx_free_set` is empty and `is_write_detected` is 0. -/
  thread : ThreadApi.Clean s'.thread

/-- The condition on a lock that reaches `tvlog_append_begin`: with it the write set still fits
the free part of the ring, a filler does not come in front of the write-set header, and one in
front of an object that is locked is shorter than 64 KB. -/
def LockInside (s : State) (size : ℕ) (locked : Bool) : Prop :=
  tvlogAccepts size ∧ lockEnd s.tvlog size ≤ s.tvlog.headCnt + tvlogSize ∧
    (s.tvlog.curWrtSet = none → ¬ tvlogWraps s.tvlog.tailCnt wsEntrySize) ∧
    (locked = true → tvlogWraps (lockStart s.tvlog) (tvlogEntrySize size) →
      tvlogBogusSize (lockStart s.tvlog) < 2 ^ 16)

instance (s : State) (size : ℕ) (locked : Bool) : Decidable (LockInside s size locked) :=
  inferInstanceAs (Decidable (_ ∧ _ ∧ _ ∧ _))

/-- The condition on the steps of a transaction. -/
def LocksInside (s : State) : Op → Prop
  | .tryLock _ size .lostCas _ => LockInside s size false
  | .tryLock _ size .locked _ => LockInside s size true
  | _ => True

instance (s : State) : ∀ op, Decidable (LocksInside s op)
  | .tryLock _ _ .lostCas _ | .tryLock _ _ .locked _ =>
    inferInstanceAs (Decidable (LockInside s _ _))
  | .tryLock _ _ .staleRead _ | .tryLock _ _ .noVhdr _ | .tryLock _ _ .isLocked _
  | .tryLock _ _ .tooNew _ | .free _ | .other _ | .storeCopy _ _ | .reclaim _ _ _ =>
    inferInstanceAs (Decidable True)

/-! ### The walk over the write set -/

theorem wsForEach_heads (T : Tvlog) (x y n cnt : ℕ) :
    wsForEach { T with headCnt := x, prevHeadCnt := y } n cnt = wsForEach T n cnt := by
  induction n generalizing cnt with
  | zero => rfl
  | succ n ih => simp only [wsForEach, ih, tvlogAt]

/-- The walk over the open write set does not look at the head. -/
theorem openEntries_heads (T : Tvlog) (x y : ℕ) :
    openEntries { T with headCnt := x, prevHeadCnt := y } = openEntries T := by
  simp only [openEntries, tvlogAtWss, tvlogAt, wsEntries, wsForEach_heads]

/-- The entries of a write set that the log knows as the current one. -/
theorem openEntries_of_isWs {T : Tvlog} {st d : ℕ} {e : ObjHdr} {objs : List (ℕ × ObjHdr)}
    (hcur : T.curWrtSet = some (tvlogIndex st)) (hws : IsWs T st e objs d) :
    openStart T = st ∧ openEntries T = some objs := by
  refine ⟨by rw [openStart, hcur]; exact hws.start, ?_⟩
  simp [openEntries, hcur, hws.start, hws.at, hws.entries]

/-- `tvlog_alloc` writes behind the tail only, a filler of any size included, and then the
tail is still inside the ring. -/
theorem tvlogAlloc_same {T : Tvlog} {c size : ℕ} (b : Bool) (type : ObjType)
    (hacc : tvlogAccepts size) (h64 : 64 ∣ T.tailCnt)
    (hroom : roomTail T.tailCnt (tvlogEntrySize size) + tvlogEntrySize size ≤ c + tvlogSize) :
    SameBytes T (tvlogAlloc T size b type).1 c T.tailCnt ∧
      (tvlogAlloc T size b type).1.curWrtSet = T.curWrtSet ∧
      (tvlogAlloc T size b type).1.headCnt = T.headCnt ∧
      T.tailCnt ≤ (tvlogAlloc T size b type).1.tailCnt ∧
      (tvlogAlloc T size b type).1.tailCnt < c + tvlogSize := by
  have he := tvlogEntrySize_eq hacc.1
  have hidx : tvlogIndex T.tailCnt < tvlogSize := Nat.mod_lt _ (by decide)
  -- a filler is a cache line or more
  have h64' : 64 ∣ tvlogIndex T.tailCnt := (Nat.dvd_mod_iff (by decide)).mpr h64
  have hend : tvlogIndex T.tailCnt + sizeofCpyHdrStruct ≤ tvlogSize := by
    have hsz : tvlogSize = 16384 * 64 := by decide
    obtain ⟨j, hj⟩ := h64'
    rw [sizeofCpyHdrStruct]
    omega
  rw [roomTail] at hroom
  by_cases hw : tvlogWraps T.tailCnt (tvlogEntrySize size)
  · rw [if_pos hw] at hroom
    have hmr : tvlogMakeRoom T (tvlogEntrySize size) b = (tvlogPutBogus T, true) := if_pos hw
    have hbs : tvlogBogusSize T.tailCnt = tvlogSize - tvlogIndex T.tailCnt := rfl
    have ht : (tvlogPutBogus T).tailCnt = T.tailCnt + tvlogBogusSize T.tailCnt := rfl
    have h0 : tvlogIndex (tvlogPutBogus T).tailCnt = 0 := by
      rw [ht]
      refine Ring.index_end ?_
      rw [← tvlogIndex]
      omega
    have hfirst : SameBytes T (tvlogPutBogus T) c T.tailCnt :=
      sameBytes_put (T := T) ⟨0, ushort (tvlogBogusSize T.tailCnt)⟩ .bogus
        (n := sizeofCpyHdrStruct) (by decide) (by rw [sizeofCpyHdrStruct] at hend ⊢; omega) hend
    have hsecond := sameBytes_put (T := tvlogPutBogus T)
      (tvlogAllocHdr (tvlogPutBogus T).tailCnt size true) type (n := sizeofCpyHdrStruct) (c := c)
      (by decide) (by rw [ht, sizeofCpyHdrStruct]; omega) (by rw [h0]; decide)
    simp only [tvlogAlloc, hmr]
    refine ⟨hfirst.trans (hsecond.mono (le_refl _) (by rw [ht]; omega)), rfl, rfl, ?_, ?_⟩
    · show T.tailCnt ≤ T.tailCnt + tvlogBogusSize T.tailCnt
      omega
    · show T.tailCnt + tvlogBogusSize T.tailCnt < _
      omega
  · rw [if_neg hw] at hroom
    have hmr : tvlogMakeRoom T (tvlogEntrySize size) b = (T, b) := if_neg hw
    simp only [tvlogAlloc, hmr]
    refine ⟨sameBytes_put _ _ (by decide) (by rw [sizeofCpyHdrStruct]; omega) hend, rfl, rfl,
      le_refl _, ?_⟩
    show T.tailCnt < _
    omega

/-- `tvlog_append_begin` without `tvlog_append_end` leaves the entries as they were. -/
theorem tvlogAppendBegin_same {T T' : Tvlog} {st size : ℕ} {es os : List (ℕ × ObjHdr)}
    {hd : ObjHdr} {b : Bool} (hs : LogShape T st es os) (hacc : tvlogAccepts size)
    (hroom : lockEnd T size ≤ T.headCnt + tvlogSize)
    (hws : T.curWrtSet = none → ¬ tvlogWraps T.tailCnt wsEntrySize)
    (hT : tvlogAppendBegin T size = (T', hd, b)) :
    T'.curWrtSet ≠ none ∧ openStart T' = st ∧ openEntries T' = some os.tail ∧ Blocked T' st ∧
      SameBytes T T' T.headCnt T.tailCnt ∧ T'.headCnt = T.headCnt ∧ T.tailCnt ≤ T'.tailCnt ∧
      T'.tailCnt < T.headCnt + tvlogSize := by
  have hle := roomTail_le_lockEnd T size
  have hrt := le_roomTail (lockStart T) (tvlogEntrySize size)
  obtain ⟨os', k, hk, hos, ho, hsame, hb, ht, hh, htl⟩ := tvlogOpenWs_spec hs (by omega) hws
  replace hT : tvlogAlloc (tvlogOpenWs T).1 size false .copy = (T', hd, b) := by
    rw [← hb]
    exact hT
  obtain ⟨hsame', hcur', hhead', htail, hlt⟩ := tvlogAlloc_same (T := (tvlogOpenWs T).1)
    (c := T.headCnt) false .copy hacc ho.tail_aligned (by rw [ht]; exact hle.trans hroom)
  rw [hT] at hsame' hcur' hhead' htail hlt
  simp only at hsame' hcur' hhead' htail hlt
  -- the write set, which may be a new one, is walked as before
  obtain ⟨e, objs, rfl, hisWs, -⟩ := TvlogParse.openEntries_eq (ho.logShape hk) (by simp [ho.cur])
  have hst : T.headCnt ≤ st := hs.committed.le
  have hisWs' := (hsame'.mono hst (le_refl _)).isWs hisWs
  obtain ⟨hstart, hent⟩ := openEntries_of_isWs (hcur'.trans ho.cur) hisWs'
  have hclk : (T'.wss (tvlogIndex st)).wrtClk = maxVersion := by
    rw [(hsame' st hst ho.nonempty).2.2, ho.ws]
  refine ⟨by rw [hcur', ho.cur]; simp, hstart, ?_, Or.inr ⟨e, _, hisWs'.at, hclk⟩, ?_, ?_,
    by omega, hlt⟩
  · rw [hent, ← hos]
    rfl
  · exact hsame.trans (hsame'.mono (le_refl _) (by omega))
  · exact hhead'.trans hh

/-! ### What a lock stores -/

/-- The part `p` of the ring is that of the counters from `a` to `b`. -/
def Between (a b : ℕ) (p : ℕ × ℕ) : Prop :=
  ∃ c d, p.1 = tvlogIndex c + d ∧ a ≤ c ∧ c + (d + p.2) ≤ b ∧
    tvlogIndex c + (d + p.2) ≤ tvlogSize

theorem Between.mono {a b a' b' : ℕ} {p : ℕ × ℕ} (h : Between a b p) (ha : a' ≤ a)
    (hb : b ≤ b') : Between a' b' p := by
  obtain ⟨c, d, hp, h1, h2, h3⟩ := h
  exact ⟨c, d, hp, by omega, by omega, h3⟩

/-- The window of the ring from `h` on that is in front of `a` keeps its bytes. -/
theorem storeParts_of_between {mem src : ℕ → UInt8} {ps : List (ℕ × ℕ)} {a b h k : ℕ}
    (hps : ∀ p ∈ ps, Between a b p) (hb : b ≤ h + tvlogSize) (hk : h ≤ k) (hka : k < a) :
    storeParts mem src ps (tvlogIndex k) = mem (tvlogIndex k) := by
  induction ps generalizing mem with
  | nil => rfl
  | cons p ps ih =>
    obtain ⟨c, d, hp, h1, h2, h3⟩ := hps p List.mem_cons_self
    have hout := Ring.append_disjoint (n := tvlogSize) (t := c) (k := d + p.2) hk (by omega)
      (by omega) h3
    rw [storeParts, List.foldl_cons, ← storeParts, ih fun q hq => hps q (List.mem_cons_of_mem _ hq),
      copy, if_neg]
    rw [← tvlogIndex, ← tvlogIndex] at hout
    omega

theorem storeParts_append (mem src : ℕ → UInt8) (ps qs : List (ℕ × ℕ)) :
    storeParts (storeParts mem src ps) src qs = storeParts mem src (ps ++ qs) := by
  rw [storeParts, storeParts, storeParts, List.foldl_append]

/-- A header at an aligned counter does not cross the end of the ring. -/
theorem header_inside {t : ℕ} (h64 : 64 ∣ t) : tvlogIndex t + sizeofCpyHdrStruct ≤ tvlogSize := by
  have hidx : tvlogIndex t < tvlogSize := Nat.mod_lt _ (by decide)
  have hsz : tvlogSize = 16384 * 64 := by decide
  obtain ⟨j, hj⟩ : 64 ∣ tvlogIndex t := (Nat.dvd_mod_iff (by decide)).mpr h64
  rw [sizeofCpyHdrStruct]
  omega

theorem bogusPart_between {t n b : ℕ} {p : ℕ × ℕ} (h64 : 64 ∣ t)
    (hroom : t + sizeofCpyHdrStruct ≤ b) (hp : p ∈ bogusPart t n) : Between t b p := by
  rw [bogusPart, List.mem_ite_nil_right, List.mem_singleton] at hp
  obtain ⟨-, rfl⟩ := hp
  exact ⟨t, 0, rfl, le_refl _, by simpa using hroom, by simpa using header_inside h64⟩

theorem tvlogAppendBegin_tailCnt (T : Tvlog) (size : ℕ) :
    (tvlogAppendBegin T size).1.tailCnt =
      roomTail (tvlogOpenWs T).1.tailCnt (tvlogEntrySize size) :=
  tvlogMakeRoom_tailCnt _ _ _

/-- `tvlog_append_begin` stores behind the tail, up to the end of the entry. -/
theorem appendBeginParts_between {T : Tvlog} {st size : ℕ} {es os : List (ℕ × ObjHdr)}
    (hs : LogShape T st es os) (hacc : tvlogAccepts size)
    (hroom : lockEnd T size ≤ T.headCnt + tvlogSize)
    (hws : T.curWrtSet = none → ¬ tvlogWraps T.tailCnt wsEntrySize) {p : ℕ × ℕ}
    (hp : p ∈ appendBeginParts T size) : Between T.tailCnt (lockEnd T size) p := by
  have hle := roomTail_le_lockEnd T size
  have hrt := le_roomTail (lockStart T) (tvlogEntrySize size)
  obtain ⟨_, _, -, -, ho, -, -, ht, -, htl⟩ := tvlogOpenWs_spec hs (by omega) hws
  have he := tvlogEntrySize_eq hacc.1
  have hsz : sizeofCpyHdrStruct ≤ tvlogEntrySize size := by
    rw [sizeofCpyHdrStruct]
    omega
  have h64 := ho.tail_aligned
  rw [ht] at h64
  rw [appendBeginParts, ht, tvlogAppendBegin_tailCnt, ht, List.mem_append, List.mem_append,
    List.mem_singleton] at hp
  rcases hp with hp | hp | rfl
  · -- the write set, which needs no filler
    rw [List.mem_ite_nil_right] at hp
    obtain ⟨hcur, hp⟩ := hp
    have hnw := hws hcur
    have hin := end_lt_of_not_wraps (by decide) (by decide) hnw
    have hstart : T.tailCnt + wsEntrySize ≤ lockStart T := by
      simp only [lockStart, hcur]
      omega
    have hws96 : sizeofWrtSetStruct ≤ wsEntrySize := by decide
    rw [bogusPart, if_neg hnw, List.nil_append, List.mem_singleton, tvlogMakeRoom_tailCnt,
      roomTail, if_neg hnw] at hp
    subst hp
    refine ⟨T.tailCnt, 0, rfl, le_refl _, ?_, ?_⟩
    · simp only
      omega
    · simp only
      omega
  · exact (bogusPart_between h64 (by omega) hp).mono htl (le_refl _)
  · have hin := roomTail_inside (t := lockStart T) (n := tvlogEntrySize size) (by omega) hacc.2
    refine ⟨roomTail (lockStart T) (tvlogEntrySize size), 0, rfl, by omega, ?_, ?_⟩
    · simp only
      omega
    · simp only
      omega

/-- The copy and `tvlog_append_end` store inside the write set. -/
theorem appendEndParts_between {T : Tvlog} {st e : ℕ} {h : ObjHdr} (hle : st ≤ T.tailCnt)
    (hcur : T.curWrtSet = some (tvlogIndex st)) (hst : ¬ tvlogWraps st wsEntrySize)
    (hend : T.tailCnt + (sizeofCpyHdrStruct + h.objSize) ≤ e) (hws : st + wsEntrySize ≤ e)
    (hin : tvlogIndex T.tailCnt + (sizeofCpyHdrStruct + h.objSize) ≤ tvlogSize) {p : ℕ × ℕ}
    (hp : p ∈ appendEndParts T h) : Between st e p := by
  have hws128 : wsEntrySize = 128 := by decide
  have hinside := end_lt_of_not_wraps (by decide) (by decide) hst
  rw [appendEndParts, hcur, List.mem_cons] at hp
  rcases hp with rfl | hp
  · refine ⟨T.tailCnt, 0, rfl, hle, ?_, ?_⟩
    · simpa using hend
    · simpa using hin
  · rw [Option.toList_some, List.map_singleton, List.mem_singleton] at hp
    subst hp
    refine ⟨st, 72, rfl, le_refl _, ?_, ?_⟩
    · simp only
      omega
    · simp only
      omega

/-! ### Releasing the locks -/

/-- The entry `p` holds the lock of `o`. -/
def HoldsLock (s : State) (p : ℕ × ObjHdr) (o : ℕ) : Prop :=
  (s.tvlog.types (tvlogIndex p.1) = .copy ∨ s.tvlog.types (tvlogIndex p.1) = .free) ∧
    s.pActVhdr (tvlogIndex p.1) = some o ∧
    (vhdrOf s.vhdrs o).pLock = some (copyPtr s.buffer (tvlogIndex p.1))

instance (s : State) (p : ℕ × ObjHdr) (o : ℕ) : Decidable (HoldsLock s p o) :=
  inferInstanceAs (Decidable (_ ∧ _ ∧ _))

/-- The headers with the locks of some objects released. -/
def released (H : Vhdrs) (P : ℕ → Prop) [DecidablePred P] : Vhdrs := fun o =>
  if P o then some (withLock (vhdrOf H o) none) else H o

theorem released_eq_self {H : Vhdrs} {P : ℕ → Prop} [DecidablePred P] (h : ∀ o, ¬ P o) :
    released H P = H := by
  funext o
  rw [released, if_neg (h o)]

theorem released_congr {H : Vhdrs} {P Q : ℕ → Prop} [DecidablePred P] [DecidablePred Q]
    (h : ∀ o, P o ↔ Q o) : released H P = released H Q := by
  funext o
  simp only [released, h o]

/-- The compare-and-swap of one entry. -/
theorem unlockCopy_eq (s : State) (i : ℕ) :
    unlockCopy s i = { s with vhdrs := released s.vhdrs (fun o => s.pActVhdr i = some o ∧
      (vhdrOf s.vhdrs o).pLock = some (copyPtr s.buffer i)) } := by
  rw [unlockCopy]
  rcases hp : s.pActVhdr i with _ | o
  · rw [released_eq_self (by simp)]
  · by_cases hl : (vhdrOf s.vhdrs o).pLock = some (copyPtr s.buffer i)
    · simp only [if_pos hl]
      congr 1
      funext o'
      rw [released, Function.update_apply]
      by_cases ho : o' = o
      · subst ho
        simp [hl]
      · rw [if_neg ho, if_neg fun h => ho (Option.some_inj.mp h.1).symm]
    · simp only [if_neg hl]
      rw [released_eq_self]
      rintro o' ⟨ho, hl'⟩
      rw [Option.some_inj] at ho
      exact hl (ho ▸ hl')

theorem unlockEntry_eq (s : State) (p : ℕ × ObjHdr) :
    unlockEntry s p = { s with vhdrs := released s.vhdrs (HoldsLock s p) } := by
  rw [unlockEntry]
  split
  · rename_i hty
    rw [unlockCopy_eq, released_congr (Q := HoldsLock s p) fun o => ?_]
    simp [HoldsLock, hty]
  · rename_i hty
    rw [unlockCopy_eq, released_congr (Q := HoldsLock s p) fun o => ?_]
    simp [HoldsLock, hty]
  · rename_i h1 h2
    rw [released_eq_self]
    rintro o ⟨hty | hty, -⟩
    · exact h1 hty
    · exact h2 hty

/-- The walk releases the locks that its entries hold, and does nothing else. -/
theorem wsUnlockAbort_spec (es : List (ℕ × ObjHdr)) (s : State) :
    wsUnlockAbort s es =
      { s with vhdrs := released s.vhdrs (fun o => ∃ p ∈ es, HoldsLock s p o) } := by
  induction es generalizing s with
  | nil =>
    rw [released_eq_self (by simp)]
    rfl
  | cons p es ih =>
    rw [wsUnlockAbort, List.foldl_cons, ← wsUnlockAbort, ih, unlockEntry_eq]
    congr 1
    funext o
    rw [released, released]
    by_cases hp : HoldsLock s p o
    · -- released by the first entry, so that no other entry holds the lock
      have hrel : released s.vhdrs (HoldsLock s p) o = some (withLock (vhdrOf s.vhdrs o) none) :=
        if_pos hp
      rw [if_neg, if_pos ⟨p, List.mem_cons_self, hp⟩]
      · exact hrel
      · rintro ⟨q, -, -, -, hl⟩
        simp [vhdrOf_of_some hrel] at hl
    · have hrel : released s.vhdrs (HoldsLock s p) o = s.vhdrs o := if_neg hp
      have hiff : ∀ q, HoldsLock { s with vhdrs := released s.vhdrs (HoldsLock s p) } q o ↔
          HoldsLock s q o := by
        intro q
        simp only [HoldsLock, vhdrOf, hrel]
      simp only [hiff, vhdrOf, hrel, List.mem_cons, exists_eq_or_imp, hp, false_or]

/-! ### The log in front of the transaction -/

/-- What holds all along of the log in front of the tail at `ts_begin`, when the other threads
alone would have made `M` of the bytes: the reclamation walks it and stops at its end. -/
structure Front (s₀ s : State) (M : ℕ → UInt8) : Prop where
  sets : ∃ es, CommittedSets s.tvlog s.tvlog.headCnt es s₀.tvlog.tailCnt ∧
    ∀ p ∈ es, EntryOk s.tvlog p
  blocked : Blocked s.tvlog s₀.tvlog.tailCnt
  tail : s₀.tvlog.tailCnt ≤ s.tvlog.tailCnt
  aligned : 64 ∣ s.tvlog.headCnt
  cap : s₀.tvlog.tailCnt ≤ s.tvlog.headCnt + tvlogSize
  kept : LogKept s₀ s M

/-- At `ts_begin`. -/
theorem Front.init {s₀ : State} (h : Idle s₀) : Front s₀ (tsBegin s₀) s₀.mem := by
  obtain ⟨st, es, os, hs⟩ := h.log
  have ho := hs.openSet
  have hb := ho.blocked
  rw [OpenSet, h.curWrtSet] at ho
  obtain ⟨rfl, rfl⟩ := ho
  exact ⟨⟨es, hs.committed, fun p hp => hs.entries p (by simpa using hp)⟩, hb, le_refl _,
    hs.aligned, hs.cap, ⟨fun _ _ _ => ⟨rfl, rfl, rfl⟩, fun _ _ _ => rfl, fun _ _ _ => rfl⟩⟩

section Front

variable {s₀ s s' : State} {M : ℕ → UInt8}

theorem Front.head_le (h : Front s₀ s M) : s.tvlog.headCnt ≤ s₀.tvlog.tailCnt := by
  obtain ⟨es, hes, -⟩ := h.sets
  exact hes.le

/-- A step that changes neither the log nor its bytes. -/
theorem Front.congr (h : Front s₀ s M) (hT : s'.tvlog = s.tvlog) (hp : s'.pActVhdr = s.pActVhdr)
    (hm : s'.mem = s.mem) : Front s₀ s' M := by
  obtain ⟨hsets, hb, ht, ha, hcap, he, ho, hby⟩ := h
  refine ⟨?_, ?_, ?_, ?_, ?_, ?_, ?_, ?_⟩ <;> rw [hT]
  · exact hsets
  · exact hb
  · exact ht
  · exact ha
  · exact hcap
  · exact he
  · rw [hp]
    exact ho
  · rw [hm]
    exact hby

/-- What is written behind the front keeps it. -/
theorem Front.append (h : Front s₀ s M) {T : Tvlog} {t b o : ℕ} (src : ℕ → UInt8)
    {ps : List (ℕ × ℕ)} (hs : s' = { s with
      tvlog := T
      mem := storeParts s.mem src ps
      pActVhdr := Function.update s.pActVhdr (tvlogIndex t) (some o)
      vhdrs := s'.vhdrs })
    (hsame : SameBytes s.tvlog T s.tvlog.headCnt s₀.tvlog.tailCnt)
    (hhead : T.headCnt = s.tvlog.headCnt) (hb : Blocked T s₀.tvlog.tailCnt)
    (htail : s₀.tvlog.tailCnt ≤ T.tailCnt) (ht : s₀.tvlog.tailCnt ≤ t)
    (htlt : t < s.tvlog.headCnt + tvlogSize) (hps : ∀ p ∈ ps, Between s₀.tvlog.tailCnt b p)
    (hroom : b ≤ s.tvlog.headCnt + tvlogSize) : Front s₀ s' M := by
  obtain ⟨es, hes, hok⟩ := h.sets
  have hT : s'.tvlog = T := by rw [hs]
  have hmem : s'.mem = storeParts s.mem src ps := by rw [hs]
  have hpa : s'.pActVhdr = Function.update s.pActVhdr (tvlogIndex t) (some o) := by rw [hs]
  have hle := h.head_le
  have hcap := h.cap
  refine ⟨⟨es, ?_, fun p hp => ⟨(hok p hp).aligned, fun hty => (hok p hp).size ?_⟩⟩, ?_, ?_, ?_,
    ?_, ?_, fun c h1 h2 => ?_, fun c h1 h2 => ?_⟩
  · rw [hT, hhead]
    exact hsame.committedSets hes
  · obtain ⟨h1, h2, -, h4⟩ := hes.walk.mem hp
    rw [hT, (hsame p.1 (by omega) (by omega)).2.1] at hty
    exact hty
  · rw [hT]
    exact hb
  · rw [hT]
    exact htail
  · rw [hT, hhead]
    exact h.aligned
  · rw [hT, hhead]
    exact hcap
  · rw [hT, hhead]
    exact h.kept.entries.trans hsame
  · rw [hT, hhead] at h1
    rw [hpa, Function.update_of_ne, h.kept.objects c h1 h2]
    intro heq
    have := Ring.index_inj (n := tvlogSize) (h := s.tvlog.headCnt) h1 (by omega) (by omega)
      htlt heq
    omega
  · rw [hT, hhead] at h1
    rw [hmem, storeParts_of_between hps hroom h1 h2, h.kept.bytes c h1 h2]

/-- The store of another thread. -/
theorem Front.storeCopy (h : Front s₀ s M) (i : ℕ) (byte : UInt8) :
    Front s₀ { s with mem := Function.update s.mem i byte } (Function.update M i byte) := by
  refine ⟨h.sets, h.blocked, h.tail, h.aligned, h.cap, h.kept.entries, h.kept.objects,
    fun c h1 h2 => ?_⟩
  show Function.update s.mem i byte (tvlogIndex c) = _
  rw [Function.update_apply, Function.update_apply, h.kept.bytes c h1 h2]

/-- Reclamation moves the head forward inside the front. -/
theorem Front.reclaim (h : Front s₀ s M) {B : ℕ} {mode : TvlogMode} {env : Env}
    {ckptSClk : ℕ} {T : Tvlog} {sizes : List (ℕ × ℕ)}
    (hT : tvlogReclaimX B s.tvlog mode env ckptSClk = some (T, sizes)) :
    Front s₀ { s with tvlog := T } M := by
  obtain ⟨es, hes, hok⟩ := h.sets
  have hlen := hes.walk.length_le
  have htail := h.tail
  obtain ⟨x, _, h1, hx⟩ := wsLoop_spec (fun cnt => decide (cnt = s.tvlog.prevHeadCnt))
    (fun _ => false) (fun w _ => reclaimWs_enq mode env w) h.blocked
    (tvlogUsed s.tvlog + 1) s.tvlog.headCnt es hes hok (by rw [tvlogUsed]; omega)
  obtain ⟨pre, post, rfl, hpre, hpost⟩ := hx.split
  have hle := hpre.le
  simp only [tvlogReclaimX, tvlogReclaimLoop, h1, Option.bind_eq_bind, Option.bind_some,
    Option.bind_eq_some_iff, Option.some_inj, Prod.mk.injEq] at hT
  obtain ⟨⟨y, _⟩, -, rfl, -⟩ := hT
  have hcap := h.cap
  refine ⟨⟨post, SameBytes.committedSets (T := s.tvlog) (fun _ _ _ => ⟨rfl, rfl, rfl⟩) hpost,
    fun p hp => ?_⟩, h.blocked, htail, ?_, ?_, h.kept.entries.mono hle (le_refl _),
    fun c h1 h2 => h.kept.objects c (hle.trans h1) h2,
    fun c h1 h2 => h.kept.bytes c (hle.trans h1) h2⟩
  · have hok' := hok p (List.mem_append_right _ hp)
    exact ⟨hok'.aligned, hok'.size⟩
  · exact walk_aligned hpre.walk h.aligned fun p hp =>
      (hok p (List.mem_append_left _ hp)).aligned
  · show s₀.tvlog.tailCnt ≤ x + tvlogSize
    omega

/-- With the tail back at the front, the log consists of committed write sets. -/
theorem Front.log (h : Front s₀ s M) {T : Tvlog} (hT : T = { s.tvlog with
    tailCnt := s₀.tvlog.tailCnt, curWrtSet := none }) : TvlogInv T := by
  subst hT
  obtain ⟨es, hes, hok⟩ := h.sets
  refine ⟨s₀.tvlog.tailCnt, es, [],
    SameBytes.committedSets (T := s.tvlog) (fun _ _ _ => ⟨rfl, rfl, rfl⟩) hes, ⟨rfl, rfl⟩,
    fun p hp => ?_, h.aligned, h.cap⟩
  have hok' := hok p (by simpa using hp)
  exact ⟨hok'.aligned, hok'.size⟩

end Front

/-! ### Between two calls -/

/-- What holds in a transaction that began in `s₀`, when the other threads alone would have
made `H` of the headers and `M` of the bytes of the log, and the transaction has locked `L`:
the walk that an abort would take visits `objs`, and these hold the locks of `L`. -/
structure TxInv (s₀ s : State) (H : Vhdrs) (M : ℕ → UInt8) (L : List ℕ)
    (objs : List (ℕ × ObjHdr)) : Prop where
  start : openStart s.tvlog = s₀.tvlog.tailCnt
  closed : s.tvlog.curWrtSet = none → objs = []
  entries : s.tvlog.curWrtSet ≠ none → openEntries s.tvlog = some objs
  startRoom : s.tvlog.curWrtSet ≠ none → ¬ tvlogWraps s₀.tvlog.tailCnt wsEntrySize
  /-- After a failed lock the next entry need not be behind the last one. -/
  shape : s.failed = false → ∃ es os, LogShape s.tvlog s₀.tvlog.tailCnt es os ∧ os.tail = objs
  front : Front s₀ s M
  copies : ∀ p ∈ objs, s.tvlog.types (tvlogIndex p.1) = .bogus ∨
    s.tvlog.types (tvlogIndex p.1) = .copy ∧ ∃ o ∈ L, s.pActVhdr (tvlogIndex p.1) = some o
  others : ∀ o, o ∉ L → s.vhdrs o = H o ∨ H o = none ∧ s.vhdrs o = some (emptyVhdr o)
  locked : ∀ o ∈ L, (vhdrOf H o).pLock = none ∧ ∃ p ∈ objs,
    s.tvlog.types (tvlogIndex p.1) = .copy ∧ s.pActVhdr (tvlogIndex p.1) = some o ∧
    tvlogIndex p.1 + sizeofCpyHdrStruct < tvlogSize ∧
    s.vhdrs o = some (withLock (vhdrOf H o) (some (copyPtr s.buffer (tvlogIndex p.1))))

/-- A step that changes neither the log nor the headers. -/
theorem TxInv.congr {s₀ s s' : State} {H : Vhdrs} {M : ℕ → UInt8} {L : List ℕ}
    {objs : List (ℕ × ObjHdr)} (h : TxInv s₀ s H M L objs) (hT : s'.tvlog = s.tvlog)
    (hb : s'.buffer = s.buffer) (hm : s'.mem = s.mem) (hp : s'.pActVhdr = s.pActVhdr)
    (hv : s'.vhdrs = s.vhdrs) (hf : s'.failed = false → s.failed = false) :
    TxInv s₀ s' H M L objs := by
  constructor
  · rw [hT]
    exact h.start
  · rw [hT]
    exact h.closed
  · rw [hT]
    exact h.entries
  · rw [hT]
    exact h.startRoom
  · rw [hT]
    exact fun hf' => h.shape (hf hf')
  · exact h.front.congr hT hp hm
  · rw [hT, hp]
    exact h.copies
  · rw [hv]
    exact h.others
  · rw [hT, hp, hb, hv]
    exact h.locked

section Steps

variable {s₀ s s' : State} {H : Vhdrs} {M : ℕ → UInt8} {L : List ℕ}
  {objs : List (ℕ × ObjHdr)}

/-- The header of an object that is not locked, allocated or not. -/
theorem TxInv.vhdrOf_eq (h : TxInv s₀ s H M L objs) {o : ℕ} (ho : o ∉ L) :
    vhdrOf s.vhdrs o = vhdrOf H o := by
  rcases h.others o ho with hv | ⟨hn, hv⟩
  · rw [vhdrOf, vhdrOf, hv]
  · rw [vhdrOf_of_some hv, vhdrOf, hn, Option.getD_none]

/-- An object that is locked when the transaction looks is not one that it can lock. -/
theorem TxInv.not_mem_of_unlocked (h : TxInv s₀ s H M L objs) {o : ℕ}
    (hfree : (vhdrOf s.vhdrs o).pLock = none) : o ∉ L := by
  intro ho
  obtain ⟨-, p, -, -, -, -, hv⟩ := h.locked o ho
  rw [vhdrOf_of_some hv, pLock_withLock] at hfree
  contradiction

/-- Allocating a header, where there is none. -/
theorem TxInv.allocVhdr (h : TxInv s₀ s H M L objs) (o : ℕ) :
    TxInv s₀ (allocVhdr s o) H M L objs := by
  refine ⟨h.start, h.closed, h.entries, h.startRoom, h.shape, h.front.congr rfl rfl rfl, h.copies,
    fun o' ho' => ?_, fun o' ho' => ?_⟩
  · show Function.update s.vhdrs o _ o' = _ ∨ _ ∧ Function.update s.vhdrs o _ o' = _
    by_cases hoo : o' = o
    · subst hoo
      rw [Function.update_self, h.vhdrOf_eq ho']
      rcases hH : H o' with _ | v
      · exact Or.inr ⟨rfl, by rw [vhdrOf, hH, Option.getD_none]⟩
      · exact Or.inl (by rw [vhdrOf_of_some hH])
    · rw [Function.update_of_ne hoo]
      exact h.others o' ho'
  · obtain ⟨hnone, p, hp, hty, hpa, hin, hv⟩ := h.locked o' ho'
    refine ⟨hnone, p, hp, hty, hpa, hin, ?_⟩
    show Function.update s.vhdrs o _ o' = _
    by_cases hoo : o' = o
    · subst hoo
      rw [Function.update_self, vhdrOf_of_some hv]
      rfl
    · rw [Function.update_of_ne hoo]
      exact hv

/-- A step of another thread. -/
theorem TxInv.other (h : TxInv s₀ s H M L objs) {a : Other} (ha : OtherEnabled s a) :
    TxInv s₀ { s with vhdrs := otherStep s.vhdrs a } (otherStep H a) M L objs := by
  have hof : ∀ o, o ≠ a.obj → otherStep s.vhdrs a o = s.vhdrs o ∧ otherStep H a o = H o :=
    fun o ho => ⟨Function.update_of_ne ho _ _, Function.update_of_ne ho _ _⟩
  have hself : ∀ H', otherStep H' a a.obj = some (a.write (vhdrOf H' a.obj)) :=
    fun _ => Function.update_self _ _ _
  refine ⟨h.start, h.closed, h.entries, h.startRoom, h.shape, h.front.congr rfl rfl rfl, h.copies,
    fun o ho => ?_, fun o ho => ?_⟩
  · by_cases hoa : o = a.obj
    · subst hoa
      left
      show otherStep s.vhdrs a a.obj = _
      rw [hself, hself, h.vhdrOf_eq ho]
    · show otherStep s.vhdrs a o = _ ∨ _ ∧ otherStep s.vhdrs a o = _
      rw [(hof o hoa).1, (hof o hoa).2]
      exact h.others o ho
  · obtain ⟨hnone, p, hp, hty, hpa, hin, hv⟩ := h.locked o ho
    by_cases hoa : o = a.obj
    · subst hoa
      -- the object is locked by this transaction, so another thread neither locks nor unlocks it
      have hkeep : (a.write (vhdrOf H a.obj)).pLock = none ∧ ∀ l,
          a.write (withLock (vhdrOf H a.obj) l) = withLock (a.write (vhdrOf H a.obj)) l := by
        match a with
        | .allocVhdr o => exact ⟨hnone, fun l => rfl⟩
        | .store o _ _ _ => exact ⟨hnone, fun l => rfl⟩
        | .lock o copy =>
          exact absurd ho (h.not_mem_of_unlocked ha)
        | .unlock o copy =>
          obtain ⟨hl, hout⟩ := ha
          rw [show vhdrOf s.vhdrs o = _ from vhdrOf_of_some hv, pLock_withLock,
            Option.some_inj, copyPtr] at hl
          omega
      refine ⟨by rw [vhdrOf_of_some (hself H)]; exact hkeep.1, p, hp, hty, hpa, hin, ?_⟩
      show otherStep s.vhdrs a a.obj = _
      rw [hself, vhdrOf_of_some (hself H), vhdrOf_of_some hv, hkeep.2]
    · have hH : vhdrOf (otherStep H a) o = vhdrOf H o := by rw [vhdrOf, (hof o hoa).2, vhdrOf]
      rw [hH]
      exact ⟨hnone, p, hp, hty, hpa, hin, (hof o hoa).1.trans hv⟩

/-- The store of another thread to a copy. -/
theorem TxInv.storeCopy (h : TxInv s₀ s H M L objs) (i : ℕ) (byte : UInt8) :
    TxInv s₀ { s with mem := Function.update s.mem i byte } H (Function.update M i byte) L objs :=
  ⟨h.start, h.closed, h.entries, h.startRoom, h.shape, h.front.storeCopy i byte, h.copies,
    h.others, h.locked⟩

/-- Reclamation moves the head only. -/
theorem TxInv.reclaim (h : TxInv s₀ s H M L objs) {B : ℕ} {mode : TvlogMode} {env : Env}
    {ckptSClk : ℕ} {T : Tvlog} {sizes : List (ℕ × ℕ)}
    (hT : tvlogReclaimX B s.tvlog mode env ckptSClk = some (T, sizes)) :
    TxInv s₀ { s with tvlog := T } H M L objs := by
  have hfront := h.front.reclaim hT
  have hshape : s.failed = false →
      ∃ es os, LogShape T s₀.tvlog.tailCnt es os ∧ os.tail = objs := by
    intro hf
    obtain ⟨es, os, hs, hos⟩ := h.shape hf
    obtain ⟨x, y, _, _, mid, post, -, -, -, -, hT', hs', -⟩ := hs.reclaimX B mode env ckptSClk
    rw [hT, Option.some_inj, Prod.mk.injEq] at hT'
    exact ⟨mid ++ post, os, hT'.1 ▸ hs', hos⟩
  have heq : ∃ x y, T = { s.tvlog with headCnt := x, prevHeadCnt := y } := by
    rw [tvlogReclaimX] at hT
    simp only [Option.bind_eq_bind, Option.bind_eq_some_iff, Option.some_inj,
      Prod.mk.injEq] at hT
    obtain ⟨⟨x, _⟩, -, ⟨y, _⟩, -, rfl, -⟩ := hT
    exact ⟨x, y, rfl⟩
  obtain ⟨x, y, rfl⟩ := heq
  refine ⟨h.start, h.closed, fun hcur => ?_, h.startRoom, hshape, hfront, h.copies, h.others,
    h.locked⟩
  exact (openEntries_heads s.tvlog x y).trans (h.entries hcur)

/-- Where a write set is open, or is about to be, its header needs no filler. -/
theorem TxInv.not_wraps (h : TxInv s₀ s H M L objs)
    (hws : s.tvlog.curWrtSet = none → ¬ tvlogWraps s.tvlog.tailCnt wsEntrySize) :
    ¬ tvlogWraps s₀.tvlog.tailCnt wsEntrySize := by
  by_cases hcur : s.tvlog.curWrtSet = none
  · have hstart := h.start
    rw [openStart, hcur] at hstart
    rw [← hstart]
    exact hws hcur
  · exact h.startRoom hcur

variable {o size : ℕ} {src : ℕ → UInt8} {es os : List (ℕ × ObjHdr)}

theorem appendBegin_eq {T : Tvlog} {hd : ObjHdr} {b : Bool}
    (hT : tvlogAppendBegin s.tvlog size = (T, hd, b)) :
    appendBegin s o size src = ({ s with
      tvlog := T
      mem := storeParts s.mem src (appendBeginParts s.tvlog size)
      pActVhdr := Function.update s.pActVhdr (tvlogIndex T.tailCnt) (some o) }, hd, b) := by
  simp only [appendBegin, hT]

/-- The entries of the write set keep their objects when a new header is written behind
them. -/
theorem entry_kept {T : Tvlog} {st t : ℕ} (hs : LogShape T st es os) (hle : T.tailCnt ≤ t)
    (hlt : t < T.headCnt + tvlogSize) (f : ℕ → Option ℕ) (o : ℕ) {p : ℕ × ObjHdr}
    (hp : p ∈ os.tail) :
    T.headCnt ≤ p.1 ∧ p.1 < T.tailCnt ∧
      Function.update f (tvlogIndex t) (some o) (tvlogIndex p.1) = f (tvlogIndex p.1) := by
  obtain ⟨h1, h2, -, h4⟩ := hs.openSet.walk.mem (List.mem_of_mem_tail hp)
  have hst := hs.committed.le
  refine ⟨by omega, by omega, Function.update_of_ne (fun heq => ?_) _ _⟩
  have := Ring.index_inj (n := tvlogSize) (h := T.headCnt) (by omega) (by omega) (by omega)
    (by omega) heq
  omega

/-- A lock that loses the compare-and-swap. -/
theorem TxInv.lostCas (h : TxInv s₀ s H M L objs) (hs : LogShape s.tvlog s₀.tvlog.tailCnt es os)
    (hos : os.tail = objs) (hfit : LockInside s size false) (hf : s.failed = true) :
    TxInv s₀ (appendBegin s o size src).1 H M L objs := by
  subst hos
  obtain ⟨hacc, hroom, hws, -⟩ := hfit
  rcases hT : tvlogAppendBegin s.tvlog size with ⟨T, hd, b⟩
  obtain ⟨hcur, hstart, hent, hblk, hsame, hhead, hle, hlt⟩ :=
    tvlogAppendBegin_same hs hacc hroom hws hT
  rw [appendBegin_eq hT]
  have htail := h.front.tail
  have hkeep : ∀ p ∈ os.tail, T.types (tvlogIndex p.1) = s.tvlog.types (tvlogIndex p.1) ∧
      Function.update s.pActVhdr (tvlogIndex T.tailCnt) (some o) (tvlogIndex p.1) =
        s.pActVhdr (tvlogIndex p.1) := by
    intro p hp
    obtain ⟨h1, h2, hpa⟩ := entry_kept hs hle hlt s.pActVhdr o hp
    exact ⟨(hsame p.1 h1 h2).2.1, hpa⟩
  have hfront : Front s₀ (appendBegin s o size src).1 M := h.front.append src
    (by rw [appendBegin_eq hT]) (hsame.mono (le_refl _) htail) hhead hblk (by omega)
    (htail.trans hle) hlt
    (fun p hp => (appendBeginParts_between hs hacc hroom hws hp).mono htail (le_refl _)) hroom
  rw [appendBegin_eq hT] at hfront
  refine ⟨hstart, fun hc => absurd hc hcur, fun _ => hent, fun _ => h.not_wraps hws,
    fun hf' => ?_, hfront, fun p hp => ?_, h.others, fun o' ho' => ?_⟩
  · exact absurd (hf.symm.trans hf') (by decide)
  · obtain ⟨hty, hpa⟩ := hkeep p hp
    rcases h.copies p hp with hb | ⟨hc, o', ho', hpo⟩
    · exact Or.inl (hty.trans hb)
    · exact Or.inr ⟨hty.trans hc, o', ho', hpa.trans hpo⟩
  · obtain ⟨hnone, p, hp, hty, hpa, hin, hv⟩ := h.locked o' ho'
    obtain ⟨hty', hpa'⟩ := hkeep p hp
    exact ⟨hnone, p, hp, hty'.trans hty, hpa'.trans hpa, hin, hv⟩

/-- The log after `tvlog_append_end`, when `T₁` is the one after `tvlog_append_begin`: behind
the old entries come at most a filler and the new copy, which starts at the tail of `T₁`. -/
structure Appended (T T₁ T' : Tvlog) (hd : ObjHdr) (st e : ℕ) (es os os' : List (ℕ × ObjHdr)) :
    Prop where
  shape : LogShape T' st es os'
  cur : T'.curWrtSet ≠ none
  old : ∀ p ∈ os.tail, p ∈ os'.tail ∧ T'.types (tvlogIndex p.1) = T.types (tvlogIndex p.1)
  new : ∀ p ∈ os'.tail, p ∈ os.tail ∨ T'.types (tvlogIndex p.1) = .bogus ∨ p.1 = T₁.tailCnt
  copy : (T₁.tailCnt, hd) ∈ os'.tail ∧ T'.types (tvlogIndex T₁.tailCnt) = .copy
  same : SameBytes T T' T.headCnt st
  head : T'.headCnt = T.headCnt
  tail : T.tailCnt ≤ T₁.tailCnt
  room : T₁.tailCnt < T.headCnt + tvlogSize
  inside : tvlogIndex T₁.tailCnt + sizeofCpyHdrStruct < tvlogSize
  parts : ∀ p ∈ appendEndParts T₁ hd, Between st e p

/-- Appending an entry that fits. -/
theorem appended_of_fits {T : Tvlog} {st : ℕ} (hs : LogShape T st es os)
    (hacc : tvlogAccepts size) (hfit : LockFits T size true)
    (hst : ¬ tvlogWraps st wsEntrySize) :
    ∃ T' hd b os', tvlogAppendBegin T size = (T', hd, b) ∧
      Appended T T' (tvlogAppendEnd T' hd b) hd st (lockEnd T size) es os os' := by
  obtain ⟨T', hd, b, hT, -, -, hbeg, os', fill, k, hopen, hk, hos, hbogus⟩ :=
    tvlogAppendBegin_spec hs hacc hfit
  have hacc' : tvlogAccepts hd.objSize := hbeg.objSize ▸ hacc
  have hle : tvlogEntrySize hd.objSize ≤ getEntrySize hd := hbeg.objSize ▸ hbeg.entry
  have h64 : 64 ≤ getEntrySize hd := by
    have := tvlogEntrySize_eq hacc'.1
    omega
  have hroom := hfit.1
  rw [← hbeg.lockEnd, ← hbeg.head] at hroom
  have hnew := (hopen.appendEnd hd b hacc' hle hbeg.aligned hroom hbeg.inside).logShape
    (by rw [List.length_append, hk]; rfl)
  obtain ⟨hsame, htypes⟩ := TvlogParse.sameBytes_appendEnd hopen b hacc' hle hroom hbeg.inside
  have hin := hbeg.inside
  have htl := hbeg.tail
  have hnil : os' ≠ [] := by
    rintro rfl
    have := hopen.nonempty
    have : st = T'.tailCnt := hopen.walk
    omega
  have htail : (os' ++ [(T'.tailCnt, hd)]).tail = os.tail ++ fill ++ [(T'.tailCnt, hd)] := by
    rw [List.tail_append_of_ne_nil hnil, hos]
  have hst' := hs.openSet.le
  have hobj : sizeofCpyHdrStruct + hd.objSize ≤ getEntrySize hd := by
    have := tvlogEntrySize_eq hacc'.1
    rw [sizeofCpyHdrStruct]
    omega
  -- the write set has a cache line in front of the copy, and one of the copy behind it
  have hwsEnd : st + wsEntrySize ≤ lockEnd T size := by
    have hlt := hopen.nonempty
    have hend := hbeg.lockEnd
    have hst64 : 64 ∣ st := walk_aligned hs.committed.walk hs.aligned fun p hp =>
      (hs.entries p (List.mem_append_left _ hp)).aligned
    have hws : wsEntrySize = 128 := by decide
    obtain ⟨i, hi⟩ := hst64
    obtain ⟨j, hj⟩ := hopen.tail_aligned
    omega
  refine ⟨T', hd, b, _, hT, hnew, ?_, fun p hp => ⟨?_, ?_⟩, fun p hp => ?_,
    ⟨?_, Function.update_self _ _ _⟩, ?_, hbeg.head, htl, ?_, ?_, fun p hp => ?_⟩
  · show T'.curWrtSet ≠ none
    rw [hopen.cur]
    exact Option.some_ne_none _
  · rw [htail]
    exact List.mem_append_left _ (List.mem_append_left _ hp)
  · obtain ⟨h1, h2, -, h4⟩ := hs.openSet.walk.mem (List.mem_of_mem_tail hp)
    have hst := hs.committed.le
    rw [htypes p.1 (by rw [hbeg.head]; omega) (by omega)]
    exact (hbeg.same p.1 (by omega) (by omega)).2.1
  · rw [htail, List.mem_append, List.mem_append, List.mem_singleton] at hp
    rcases hp with (hp | hp) | rfl
    · exact Or.inl hp
    · -- the filler
      have hmem : p ∈ os' := List.mem_of_mem_tail (hos ▸ List.mem_append_right _ hp)
      obtain ⟨h1, h2, -, h4⟩ := hopen.walk.mem hmem
      have hst := hopen.committed.le
      exact Or.inr (Or.inl ((htypes p.1 (by omega) (by omega)).trans (hbogus p hp)))
    · exact Or.inr (Or.inr rfl)
  · rw [htail]
    simp
  · rw [hbeg.head] at hsame
    exact (hbeg.same.mono (le_refl _) hst').trans hsame
  · rw [← hbeg.head]
    omega
  · rw [sizeofCpyHdrStruct]
    omega
  · exact appendEndParts_between (hst'.trans htl) hopen.cur hst (hbeg.lockEnd ▸ by omega) hwsEnd
      (by omega) hp

/-- A lock that succeeds. -/
theorem TxInv.lock (h : TxInv s₀ s H M L objs) (hf : s.failed = false)
    (hfit : LockInside s size true) (hfree : (vhdrOf s.vhdrs o).pLock = none) :
    ∃ objs', TxInv s₀ (appendEnd (appendBegin s o size src).1 o (appendBegin s o size src).2.1
      (appendBegin s o size src).2.2 src) H M (L ++ [o]) objs' := by
  obtain ⟨es, os, hs, rfl⟩ := h.shape hf
  obtain ⟨hacc, hroom, hws, hfill⟩ := hfit
  have hst := h.not_wraps hws
  have htl := h.front.tail
  have ho : o ∉ L := h.not_mem_of_unlocked hfree
  obtain ⟨T, hd, b, os', hT, happ⟩ :=
    appended_of_fits hs hacc ⟨hroom, hws, fun hw => ⟨rfl, hfill rfl hw⟩⟩ hst
  have hstart : openStart (tvlogAppendEnd T hd b) = s₀.tvlog.tailCnt :=
    TvlogParse.openStart_eq happ.shape
  have hobjs : openEntries (tvlogAppendEnd T hd b) = some os'.tail := by
    obtain ⟨e, objs, rfl, -, hent⟩ := TvlogParse.openEntries_eq happ.shape happ.cur
    exact hent
  have hparts : ∀ p ∈ appendBeginParts s.tvlog size ++ appendEndParts T hd,
      Between s₀.tvlog.tailCnt (lockEnd s.tvlog size) p := by
    intro p hp
    rcases List.mem_append.mp hp with hp | hp
    · exact (appendBeginParts_between hs hacc hroom hws hp).mono htl (le_refl _)
    · exact happ.parts p hp
  have hfront : Front s₀ (appendEnd (appendBegin s o size src).1 o hd b src) M :=
    h.front.append src (by rw [appendBegin_eq hT, appendEnd, storeParts_append]) happ.same happ.head
    happ.shape.openSet.blocked happ.shape.openSet.le (htl.trans happ.tail) happ.room hparts hroom
  -- the old entries keep their objects
  have hpa : ∀ p ∈ os.tail,
      Function.update s.pActVhdr (tvlogIndex T.tailCnt) (some o) (tvlogIndex p.1) =
        s.pActVhdr (tvlogIndex p.1) := fun p hp =>
    (entry_kept hs happ.tail happ.room s.pActVhdr o hp).2.2
  have hlast : Function.update s.pActVhdr (tvlogIndex T.tailCnt) (some o)
      (tvlogIndex T.tailCnt) = some o := Function.update_self _ _ _
  rw [appendBegin_eq hT] at hfront ⊢
  refine ⟨os'.tail, ⟨hstart, fun hc => absurd hc happ.cur, fun _ => hobjs, fun _ => hst,
    fun _ => ⟨es, os', happ.shape, rfl⟩, hfront, fun p hp => ?_, fun o' ho' => ?_,
    fun o' ho' => ?_⟩⟩
  · rcases happ.new p hp with hp | hp | hp
    · rcases h.copies p hp with hb | ⟨hc, o', ho', hpo⟩
      · exact Or.inl ((happ.old p hp).2.trans hb)
      · exact Or.inr ⟨(happ.old p hp).2.trans hc, o', List.mem_append_left _ ho',
          (hpa p hp).trans hpo⟩
    · exact Or.inl hp
    · rw [hp]
      exact Or.inr ⟨happ.copy.2, o, by simp, hlast⟩
  · rw [List.mem_append, List.mem_singleton, not_or] at ho'
    have hv : ∀ v, Function.update s.vhdrs o v o' = s.vhdrs o' :=
      fun v => Function.update_of_ne ho'.2 _ _
    show Function.update s.vhdrs o _ o' = _ ∨ _ ∧ Function.update s.vhdrs o _ o' = _
    rw [hv]
    exact h.others o' ho'.1
  · rw [List.mem_append, List.mem_singleton] at ho'
    rcases ho' with ho' | rfl
    · obtain ⟨hnone, p, hp, hty, hpo, hin, hv⟩ := h.locked o' ho'
      obtain ⟨hp', hty'⟩ := happ.old p hp
      refine ⟨hnone, p, hp', hty'.trans hty, (hpa p hp).trans hpo, hin, ?_⟩
      refine Eq.trans (Function.update_of_ne ?_ _ _) hv
      rintro rfl
      exact ho ho'
    · have hof := h.vhdrOf_eq ho
      obtain ⟨hmem, hty⟩ := happ.copy
      refine ⟨hof ▸ hfree, _, hmem, hty, hlast, happ.inside, ?_⟩
      rw [← hof]
      exact Function.update_self _ _ _

theorem filterMap_cons_toList {α β : Type} (f : α → Option β) (a : α) (l : List α) :
    (a :: l).filterMap f = (f a).toList ++ l.filterMap f := by
  rcases h : f a with _ | b
  · rw [List.filterMap_cons_none h, Option.toList_none, List.nil_append]
  · rw [List.filterMap_cons_some h, Option.toList_some, List.singleton_append]

/-- A step that takes no lock. -/
theorem locked_append_nil {op : Op} (h : op.locked = none) (L : List ℕ) :
    L ++ op.locked.toList = L := by
  rw [h, Option.toList_none, List.append_nil]

/-- `_ts_try_lock`, whatever it returns. -/
theorem TxInv.tsTryLock {r : LockReturn} (h : TxInv s₀ s H M L objs) (hf : s.failed = false)
    (hfree : r = .locked → (vhdrOf s.vhdrs o).pLock = none)
    (hok : LocksInside s (.tryLock o size r src)) :
    ∃ objs', TxInv s₀ (tsTryLock s o size r src) H M
      (L ++ (Op.locked (.tryLock o size r src)).toList) objs' := by
  obtain ⟨es, os, hs, hos⟩ := h.shape hf
  have h₀ : TxInv s₀
      { s with thread := ThreadApi.tsTryLock s.thread r, failed := decide (r ≠ .locked) }
      H M L objs := h.congr rfl rfl rfl rfl rfl fun _ => hf
  match r with
  | .staleRead | .noVhdr =>
    rw [locked_append_nil rfl]
    exact ⟨objs, h₀⟩
  | .isLocked | .tooNew =>
    rw [locked_append_nil rfl]
    exact ⟨objs, h₀.allocVhdr o⟩
  | .lostCas =>
    rw [locked_append_nil rfl]
    exact ⟨objs, (h₀.allocVhdr o).lostCas hs hos hok rfl⟩
  | .locked =>
    refine (h₀.allocVhdr o).lock rfl hok ?_
    -- a header that was allocated just now is as good as none
    have hof : vhdrOf (Function.update s.vhdrs o (some (vhdrOf s.vhdrs o))) o =
        vhdrOf s.vhdrs o := vhdrOf_of_some (Function.update_self _ _ _)
    exact (congrArg ActVhdr.pLock hof).trans (hfree rfl)

/-- One step inside the transaction. -/
theorem TxInv.step {B : ℕ} {op : Op} (h : TxInv s₀ s H M L objs) (hok : LocksInside s op)
    (hs : step B s op = some s') :
    ∃ objs', TxInv s₀ s' (otherVhdrs H [op]) (otherMem M [op]) (L ++ op.locked.toList) objs' := by
  match op with
  | .tryLock o size r src =>
    rw [TvlogAbort.step, Option.ite_none_right_eq_some, Option.some_inj] at hs
    obtain ⟨⟨hf, hfree⟩, rfl⟩ := hs
    exact h.tsTryLock hf hfree hok
  | .free pAct =>
    rw [TvlogAbort.step, Option.ite_none_right_eq_some, Option.some_inj] at hs
    obtain ⟨hf, rfl⟩ := hs
    rw [locked_append_nil rfl]
    exact ⟨objs, h.congr rfl rfl rfl rfl rfl fun _ => hf⟩
  | .other a =>
    rw [TvlogAbort.step, Option.ite_none_right_eq_some, Option.some_inj] at hs
    obtain ⟨ha, rfl⟩ := hs
    rw [locked_append_nil rfl]
    exact ⟨objs, h.other ha⟩
  | .storeCopy i byte =>
    rw [TvlogAbort.step, Option.some_inj] at hs
    subst hs
    rw [locked_append_nil rfl]
    exact ⟨objs, h.storeCopy i byte⟩
  | .reclaim mode env ckptSClk =>
    simp only [TvlogAbort.step, Option.bind_eq_bind, Option.bind_eq_some_iff,
      Option.some_inj] at hs
    obtain ⟨⟨T, sizes⟩, hT, rfl⟩ := hs
    rw [locked_append_nil rfl]
    exact ⟨objs, h.reclaim hT⟩

/-- All steps of the transaction. -/
theorem TxInv.run {B : ℕ} {ops : List Op} (h : TxInv s₀ s H M L objs)
    (hs : Run.exec (TvlogAbort.step B) LocksInside s ops = some s') :
    ∃ objs', TxInv s₀ s' (otherVhdrs H ops) (otherMem M ops) (L ++ ops.filterMap Op.locked)
      objs' := by
  induction ops generalizing s H M L objs with
  | nil =>
    rw [Run.exec, Option.some_inj] at hs
    subst hs
    exact ⟨objs, by rwa [List.filterMap_nil, List.append_nil]⟩
  | cons op ops ih =>
    obtain ⟨hok, s₁, h1, h2⟩ := Run.exec_cons_eq_some.mp hs
    obtain ⟨objs₁, h₁⟩ := h.step hok h1
    obtain ⟨objs', h'⟩ := ih h₁ h2
    refine ⟨objs', ?_⟩
    rw [List.append_assoc] at h'
    rw [filterMap_cons_toList]
    exact h'

end Steps

/-- A step is a call of the thread, or nothing to it. -/
theorem thread_step {B : ℕ} {op : Op} {s s' : State} (hs : step B s op = some s') :
    s'.thread = op.call.toList.foldl ThreadApi.call s.thread := by
  match op with
  | .tryLock o size r src =>
    rw [step, Option.ite_none_right_eq_some, Option.some_inj] at hs
    obtain ⟨-, rfl⟩ := hs
    match r with
    | .staleRead | .noVhdr | .isLocked | .tooNew | .lostCas | .locked => rfl
  | .free pAct =>
    rw [step, Option.ite_none_right_eq_some, Option.some_inj] at hs
    obtain ⟨-, rfl⟩ := hs
    rfl
  | .other a =>
    rw [step, Option.ite_none_right_eq_some, Option.some_inj] at hs
    obtain ⟨-, rfl⟩ := hs
    rfl
  | .storeCopy i byte =>
    rw [step, Option.some_inj] at hs
    subst hs
    rfl
  | .reclaim mode env ckptSClk =>
    simp only [step, Option.bind_eq_bind, Option.bind_eq_some_iff, Option.some_inj] at hs
    obtain ⟨⟨T, sizes⟩, -, rfl⟩ := hs
    rfl

/-- The thread sees only its own calls. -/
theorem thread_of_exec {B : ℕ} {ops : List Op} {s s' : State}
    (hs : Run.exec (step B) LocksInside s ops = some s') :
    s'.thread = (ops.filterMap Op.call).foldl ThreadApi.call s.thread := by
  induction ops generalizing s with
  | nil =>
    rw [Run.exec, Option.some_inj] at hs
    subst hs
    rfl
  | cons op ops ih =>
    obtain ⟨-, s₁, h1, h2⟩ := Run.exec_cons_eq_some.mp hs
    rw [ih h2, thread_step h1, filterMap_cons_toList, List.foldl_append]

/-! ### The abort -/

/-- At `ts_begin` nothing is locked. -/
theorem Idle.txInv {s : State} (h : Idle s) : TxInv s (tsBegin s) s.vhdrs s.mem [] [] := by
  obtain ⟨st, es, os, hs⟩ := h.log
  have ho := hs.openSet
  rw [OpenSet, h.curWrtSet] at ho
  obtain ⟨rfl, rfl⟩ := ho
  refine ⟨?_, fun _ => rfl, fun hc => absurd h.curWrtSet hc, fun hc => absurd h.curWrtSet hc,
    fun _ => ⟨es, [], hs, rfl⟩, Front.init h, fun _ hp => absurd hp List.not_mem_nil,
    fun o _ => Or.inl rfl, fun _ hp => absurd hp List.not_mem_nil⟩
  show openStart s.tvlog = _
  rw [openStart, h.curWrtSet]

section Abort

variable {s₀ s s' : State} {H : Vhdrs} {M : ℕ → UInt8} {L : List ℕ}
  {objs : List (ℕ × ObjHdr)}

/-- The walk holds the locks of the transaction and no others. -/
theorem TxInv.holdsLock_iff (h : TxInv s₀ s H M L objs) (o : ℕ) :
    (∃ p ∈ objs, HoldsLock s p o) ↔ o ∈ L := by
  constructor
  · rintro ⟨p, hp, hty, hpa, -⟩
    rcases h.copies p hp with hb | ⟨-, o', ho', hpa'⟩
    · rw [hb] at hty
      rcases hty with hty | hty <;> contradiction
    · rw [hpa, Option.some_inj] at hpa'
      exact hpa' ▸ ho'
  · intro ho
    obtain ⟨-, p, hp, hty, hpa, -, hv⟩ := h.locked o ho
    exact ⟨p, hp, Or.inl hty, hpa, by rw [vhdrOf_of_some hv, pLock_withLock]⟩

/-- With the locks of the transaction released, the headers are as the other threads alone
would have left them. -/
theorem TxInv.released (h : TxInv s₀ s H M L objs) (o : ℕ) :
    (released s.vhdrs (· ∈ L) o = H o ∨
      H o = none ∧ released s.vhdrs (· ∈ L) o = some (emptyVhdr o)) ∧
    (o ∉ L → released s.vhdrs (· ∈ L) o = s.vhdrs o) := by
  refine ⟨?_, fun ho => if_neg ho⟩
  by_cases ho : o ∈ L
  · obtain ⟨hnone, p, -, -, -, -, hv⟩ := h.locked o ho
    have hrel : TvlogAbort.released s.vhdrs (· ∈ L) o = some (vhdrOf H o) := by
      rw [TvlogAbort.released, if_pos ho, vhdrOf_of_some hv, withLock_withLock,
        withLock_self hnone]
    rw [hrel]
    rcases hH : H o with _ | v
    · exact Or.inr ⟨rfl, by rw [vhdrOf, hH, Option.getD_none]⟩
    · exact Or.inl (by rw [vhdrOf_of_some hH])
  · rw [show TvlogAbort.released s.vhdrs (· ∈ L) o = s.vhdrs o from if_neg ho]
    exact h.others o ho

/-- What `ts_abort` does. -/
theorem TxInv.abort (h : TxInv s₀ s H M L objs) :
    ∃ s', tsAbort s = some s' ∧ s'.thread = ThreadApi.tsAbort s.thread ∧
      s'.tvlog = { s.tvlog with tailCnt := s₀.tvlog.tailCnt, curWrtSet := none } ∧
      s'.mem = s.mem ∧ s'.pActVhdr = s.pActVhdr ∧
      s'.vhdrs = TvlogAbort.released s.vhdrs (· ∈ L) := by
  have hstart := h.start
  rw [openStart] at hstart
  rcases hcur : s.tvlog.curWrtSet with _ | i
  · -- no write set: nothing is locked
    rw [hcur] at hstart
    refine ⟨{ s with thread := ThreadApi.tsAbort s.thread }, by simp only [tsAbort, hcur], rfl,
      ?_, rfl, rfl, ?_⟩
    · simp only [← hstart, ← hcur]
    · refine (released_eq_self fun o ho => ?_).symm
      obtain ⟨-, p, hp, -⟩ := h.locked o ho
      rw [h.closed hcur] at hp
      contradiction
  · rw [hcur] at hstart
    have hent := h.entries (by simp [hcur])
    have hwalk := wsUnlockAbort_spec objs { s with thread := ThreadApi.tsAbort s.thread }
    refine ⟨_, by simp only [tsAbort, hcur, hent]; rfl, ?_, ?_, ?_, ?_, ?_⟩
    · rw [hwalk]
    · simp only [tvlogAbort, hcur]
      rw [← hstart]
    · rw [hwalk]
    · rw [hwalk]
    · rw [hwalk]
      exact released_congr fun o => h.holdsLock_iff o

end Abort

/-- A transaction that begins in any state between two transactions, whose write set fits the
free part of the ring and whose fillers fit their headers, is undone by `ts_abort` if and only
if it has called `ts_free` only together with a lock that reached the log. -/
theorem undone_iff {B : ℕ} {s₀ s : State} {ops : List Op} (h₀ : Idle s₀)
    (hs : Run.exec (step B) LocksInside (tsBegin s₀) ops = some s) :
    (∃ s', tsAbort s = some s' ∧ Undone s₀ ops s s') ↔ (abortedTx ops).LeavesNothing := by
  obtain ⟨objs, h⟩ := h₀.txInv.run hs
  rw [List.nil_append] at h
  obtain ⟨s', hs', hthread, hT, hm, hp, hv⟩ := h.abort
  -- the thread has run the calls of the transaction
  have hrun : s'.thread = ThreadApi.runTx s₀.thread (abortedTx ops) := by
    rw [hthread, thread_of_exec hs]
    rfl
  have hclean := ThreadApi.clean_runTx_iff h₀.thread (abortedTx ops)
  rw [← hrun] at hclean
  rw [← hclean]
  constructor
  · rintro ⟨s'', hs'', hu⟩
    rw [hs', Option.some_inj] at hs''
    subst hs''
    exact hu.thread
  · intro hc
    refine ⟨s', hs', ⟨fun o => ?_, fun o ho => ?_, ⟨?_, ?_, ?_⟩, h.front.log hT, ?_, ?_, hc⟩⟩
    · rw [hv]
      exact (h.released o).1
    · rw [hv]
      exact (h.released o).2 ho
    · rw [hT]
      exact h.front.kept.entries
    · rw [hT, hp]
      exact h.front.kept.objects
    · rw [hT, hm]
      exact h.front.kept.bytes
    · rw [hT]
    · rw [hT]

/-- Every log that allowed calls reach consists of committed write sets between two
transactions. -/
theorem idle_of_reach {O : Type} [DecidableEq O] {B : ℕ} {t : TvlogParse.State O} {s : State}
    (h : Run.Reach (· = TvlogParse.initial O) (TvlogParse.step B) TvlogParse.LocksOk t)
    (hT : s.tvlog = t.tvlog) (hcur : t.tvlog.curWrtSet = none)
    (hthread : ThreadApi.Clean s.thread) : Idle s := by
  have hinv : TvlogParse.Inv t := h.invariant
    (by rintro t rfl; exact TvlogParse.inv_initial) fun t i t' => TvlogParse.inv_step
  obtain ⟨st, es, os, l, hs, -, -⟩ := hinv
  rw [← hT] at hs hcur
  exact ⟨hthread, hcur, st, es, os, hs⟩

/-- Two transactions: one writes an object of 300000 bytes and is reclaimed, the other one an
object of 199000 bytes. -/
def twoTxs : List (TvlogParse.Op ℕ) :=
  let env : Env := ⟨fun _ => false, fun _ => false, fun _ => false⟩
  [.lock 7 300000 true, .commit 100 fun _ => false, .reclaim .ckpt env 1000,
    .lock 8 199000 true, .commit 2000 fun _ => false, .reclaim .ckpt env 1000]

/-- The log after them. -/
def logAfterTwo : Option (TvlogParse.State ℕ) :=
  Run.exec (TvlogParse.step 0) TvlogParse.LocksOk (TvlogParse.initial ℕ) twoTxs

/-- The thread after them: the copy of object 8 is at index 300352. -/
def afterTwo : State where
  thread := ThreadApi.fresh
  tvlog := (logAfterTwo.map TvlogParse.State.tvlog).getD tvlogCreate
  buffer := 4096
  mem := fun _ => 1
  pActVhdr := fun i => if i = 300352 then some 8 else none
  vhdrs := fun o =>
    if o = 8 then some { emptyVhdr 8 with pCopy := some (copyPtr 4096 300352) } else none
  failed := false

theorem idle_afterTwo : Idle afterTwo := by
  have h : logAfterTwo.map (fun t => decide (t.tvlog.curWrtSet = none)) = some true := by
    decide +kernel
  obtain ⟨t, ht, hcur⟩ := Option.map_eq_some_iff.mp h
  refine idle_of_reach (.of_exec (.init rfl) ht) ?_ (of_decide_eq_true hcur)
    ⟨rfl, rfl, rfl, rfl, ⟨0, rfl⟩⟩
  rw [afterTwo, ht, Option.map_some, Option.getD_some]

/-- Two locks with a filler of 48 KB between them, a lock of another thread, which also commits
over the copy of object 8, `ts_free`, and a lock that fails. -/
def shortFiller : List Op :=
  [.tryLock 16 500000 .locked fun _ => 2, .other (.lock 32 1), .storeCopy 300376 3,
    .tryLock 24 60000 .locked fun _ => 2, .free 16, .tryLock 32 64 .isLocked fun _ => 2]

theorem undone_iff_shortFiller :
    ∃ s s', Run.exec (step 0) LocksInside (tsBegin afterTwo) shortFiller = some s ∧
      tsAbort s = some s' ∧ Undone afterTwo shortFiller s s' := by
  have h : (Run.exec (step 0) LocksInside (tsBegin afterTwo) shortFiller).isSome = true := by
    decide +kernel
  obtain ⟨s, hs⟩ := Option.isSome_iff_exists.mp h
  obtain ⟨s', hs', hu⟩ := (undone_iff idle_afterTwo hs).mpr (Or.inl rfl)
  exact ⟨s, s', hs, hs', hu⟩

/-- Two locks with a filler of 64 KB between them. -/
def longFiller : List Op :=
  [.tryLock 16 483400 .locked fun _ => 2, .tryLock 24 70000 .locked fun _ => 2]

/-- The size of the filler is stored as 0, the walk visits it twice, and the object behind it
stays locked. -/
theorem lock_behind_long_filler :
    ∃ s s', Run.exec (step 0) Run.any (tsBegin afterTwo) longFiller = some s ∧
      tsAbort s = some s' ∧ otherVhdrs afterTwo.vhdrs longFiller 24 = none ∧
      (vhdrOf s'.vhdrs 24).pLock = some (copyPtr 4096 0) ∧
      ¬ Undone afterTwo longFiller s s' := by
  have h : ((Run.exec (step 0) Run.any (tsBegin afterTwo) longFiller).map fun s =>
      (tsAbort s).map fun s' => (vhdrOf s'.vhdrs 24).pLock) =
        some (some (some (copyPtr 4096 0))) := by
    decide +kernel
  obtain ⟨s, hs, hmap⟩ := Option.map_eq_some_iff.mp h
  obtain ⟨s', hs', hlock⟩ := Option.map_eq_some_iff.mp hmap
  refine ⟨s, s', hs, hs', rfl, hlock, fun hu => ?_⟩
  -- the header should be missing or empty
  have hempty : vhdrOf s'.vhdrs 24 = emptyVhdr 24 := by
    rcases hu.vhdrs 24 with hv | ⟨-, hv⟩
    · rw [vhdrOf, hv]
      rfl
    · exact vhdrOf_of_some hv
  rw [hempty] at hlock
  contradiction

end TimeStone.TvlogAbort
