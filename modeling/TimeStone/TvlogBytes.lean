/-
The write-set header in the bytes of the transient version log (`tvlog.c`).

`Tvlog` keeps the bodies of the write sets apart from the ring.  In the code they are bytes of
it: `tvlog_abort` finds the tail to go back to in `start_tail_cnt` of the open write set, where
a copy that is appended one round later may have been written.  Nothing in `tvlog_alloc` looks
whether the entries of a transaction still fit the ring.

Until then a write-set header never needs a filler.  `add_extra_padding` looks one entry ahead:
with what is appended, the tail always has room for a header in front of the end of the ring
(`Inv`), and aborts, abandoned appends and fillers keep it so.

* `alloc_spec` — what one call of `tvlog_alloc` does to the tail and to the bytes;
* `Inv.append`, `Inv.abort` — the room is kept;
* `hdrNeverWraps_of_reach` — the write-set header never wraps in a run in which no append
  writes over the body of the open write set;
* `abort_to_overwritten_tail` — a run in which one does.
-/
import TimeStone.TvlogRing
import TimeStone.Lib.Bytes
import TimeStone.Lib.Run

namespace TimeStone.TvlogBytes

open Bytes

/-- `TYPE_WRT_SET`. -/
def typeWrtSet : ℕ := 1

/-- `TYPE_COPY`. -/
def typeCopy : ℕ := 2

/-- `TYPE_BOGUS`. -/
def typeBogus : ℕ := 5

/-- `ts_tvlog_t` of the thread at the address `thread`, with the bytes of the buffer at the
address `buffer`; `curWrtSet` is the index of the header of the open write set.  Two fields are
ghosts: the tail in front of that header, and where the copies of the write set are, each with
its size. -/
structure State where
  tailCnt : ℕ
  curWrtSet : Option ℕ
  mem : ℕ → UInt8
  buffer : ℕ
  thread : ℕ
  openCnt : ℕ
  copies : List (ℕ × ℕ)

/-- `tvlog_create`.  The buffer is not initialised. -/
def IsInit (s : State) : Prop :=
  s.tailCnt = 0 ∧ s.curWrtSet = none ∧ s.copies = []

/-- `get_entry_size` of the header at index `i`. -/
def entrySizeAt (m : ℕ → UInt8) (i : ℕ) : ℕ :=
  getEntrySize ⟨load m (i + 48) 4, load m (i + 52) 2⟩

/-- `start_tail_cnt` of the write set whose header is at index `i`. -/
def startTailCntAt (m : ℕ → UInt8) (i : ℕ) : ℕ := load m (i + 80) 8

/-- The stores that make the header at `i` a filler. -/
def bogusHdr (i size : ℕ) : List Store :=
  word i sizeofCpyHdrStruct 0 ++ word (i + 52) 2 (ushort size) ++ word (i + 54) 1 typeBogus

/-- The stores of `tvlog_alloc` to the header at `i`. -/
def allocHdr (i : ℕ) (h : ObjHdr) : List Store :=
  word i sizeofCpyHdrStruct 0 ++ word (i + 8) 8 maxVersion ++ word (i + 48) 4 h.objSize ++
    word (i + 52) 2 h.paddingSize

/-- The stores of `tvlog_append_begin` to a new write set at `i`. -/
def wsHdr (s : State) (i : ℕ) : List Store :=
  word i 8 (s.buffer + i + sizeofCpyHdrStruct) ++ word (i + 54) 1 typeWrtSet ++
    word (i + 56) 8 maxVersion ++ word (i + 64) 8 maxVersion ++ word (i + 72) 4 0 ++
    word (i + 80) 8 s.tailCnt ++ word (i + 88) 8 s.thread

/-- The stores of `tvlog_append_begin` to a new copy at `i`. -/
def copyHdr (pWs pActVhdr i : ℕ) : List Store :=
  word i 8 pWs ++ word (i + 40) 8 pActVhdr ++ word (i + 54) 1 typeCopy

/-- The filler of `tvlog_alloc`. -/
def putBogus (s : State) : State where
  __ := s
  mem := put s.mem (bogusHdr (tvlogIndex s.tailCnt) (tvlogBogusSize s.tailCnt))
  tailCnt := ulong (s.tailCnt + tvlogBogusSize s.tailCnt)

/-- The filler part of `tvlog_alloc`. -/
def makeRoom (s : State) (entrySize : ℕ) (bogus : Bool) : State × Bool :=
  if tvlogWraps s.tailCnt entrySize then (putBogus s, true) else (s, bogus)

/-- `tvlog_alloc`.  It returns the header at the tail, and `*bogus`. -/
def tvlogAlloc (s : State) (objSize : ℕ) (bogus : Bool) : State × Bool :=
  let (s₁, bogus₁) := makeRoom s (tvlogEntrySize objSize) bogus
  let h := tvlogAllocHdr s₁.tailCnt objSize bogus₁
  ({ s₁ with mem := put s₁.mem (allocHdr (tvlogIndex s₁.tailCnt) h) }, bogus₁)

/-- The first half of `tvlog_append_begin`: open a write set if there is none. -/
def openWs (s : State) : State × Bool :=
  match s.curWrtSet with
  | some _ => (s, false)
  | none =>
    let (s₁, bogus) := tvlogAlloc s sizeofWrtSet false
    let i := tvlogIndex s₁.tailCnt
    let mem := put s₁.mem (wsHdr s₁ i)
    ({ s₁ with
        mem := mem
        curWrtSet := some i
        tailCnt := ulong (s₁.tailCnt + entrySizeAt mem i)
        openCnt := s.tailCnt
        copies := [] }, bogus)

/-- `tvlog_append_begin`. -/
def tvlogAppendBegin (s : State) (pActVhdr objSize : ℕ) : State × Bool :=
  let (s₁, bogus) := openWs s
  let (s₂, bogus) := tvlogAlloc s₁ objSize bogus
  match s₂.curWrtSet with
  | none => (s₂, bogus)
  | some w =>
    ({ s₂ with
        mem := put s₂.mem (copyHdr (s₂.buffer + w + sizeofCpyHdrStruct) pActVhdr
          (tvlogIndex s₂.tailCnt)) }, bogus)

/-- The copy of the object behind its header, and `tvlog_append_end`. -/
def tvlogAppendEnd (s : State) (objSize : ℕ) (obj : ℕ → UInt8) (bogusAllocated : Bool) :
    State :=
  let i := tvlogIndex s.tailCnt
  let mem := copy s.mem (i + sizeofCpyHdrStruct) objSize obj
  { s with
    tailCnt := ulong (s.tailCnt + entrySizeAt mem i)
    mem := match s.curWrtSet with
      | none => mem
      | some w => put mem (word (w + 72) 4
          (uint (load mem (w + 72) 4 + if bogusAllocated then 2 else 1)))
    copies := (i + sizeofCpyHdrStruct, objSize) :: s.copies }

/-- `tvlog_append_begin`, and if the lock is taken the copy of the object and
`tvlog_append_end`; `tvlog_append_abort` does nothing. -/
def tvlogAppend (s : State) (pActVhdr objSize : ℕ) (obj : Option (ℕ → UInt8)) : State :=
  let (s₁, bogus) := tvlogAppendBegin s pActVhdr objSize
  match obj with
  | none => s₁
  | some obj => tvlogAppendEnd s₁ objSize obj bogus

/-- `tvlog_abort` with the open write set at `w`.  `ws_unlock_abort` stores to the volatile
headers of the objects only. -/
def tvlogAbort (s : State) (w : ℕ) : State where
  __ := s
  tailCnt := startTailCntAt s.mem w
  curWrtSet := none
  copies := []

inductive Action
  /-- An append of an object whose volatile header is at `pActVhdr`; `obj` are its bytes, and
  without them the lock fails. -/
  | append (pActVhdr objSize : ℕ) (obj : Option (ℕ → UInt8))
  /-- `tvlog_commit`.  It stores to the write set and to the headers of its copies, and nothing
  of that is looked at again: the buffer may hold anything afterwards. -/
  | commit (mem : ℕ → UInt8)
  | abort
  /-- The application stores to a copy that it has locked. -/
  | store (addr : ℕ) (byte : UInt8)

/-- Entries smaller than 64 KB. -/
def SmallEntry (objSize : ℕ) : Prop := objSize < 2 ^ 16 ∧ tvlogEntrySize objSize < 2 ^ 16

instance (n : ℕ) : Decidable (SmallEntry n) := inferInstanceAs (Decidable (_ ∧ _))

/-- One call on the log. -/
def step (s : State) : Action → Option State
  | .append pActVhdr objSize obj =>
    if SmallEntry objSize then some (tvlogAppend s pActVhdr objSize obj) else none
  | .commit mem =>
    if s.curWrtSet = none then none
    else some { s with mem := mem, curWrtSet := none, copies := [] }
  | .abort =>
    match s.curWrtSet with
    | none => none
    | some w => some (tvlogAbort s w)
  | .store addr byte =>
    if ∃ p ∈ s.copies, p.1 ≤ addr ∧ addr < p.1 + p.2
    then some { s with mem := put s.mem [⟨addr, byte⟩] } else none

/-! ### What the write-set header needs -/

/-- In one call of `tvlog_alloc` a filler ends at index 0 of the ring, and so does the entry
if it is padded, that is if it is longer than the cache lines of its object. -/
structure AllocEnds (s : State) (objSize : ℕ) (bogus : Bool) : Prop where
  filler : tvlogWraps s.tailCnt (tvlogEntrySize objSize) →
    tvlogIndex (tvlogAlloc s objSize bogus).1.tailCnt = 0
  padding :
    let s' := (tvlogAlloc s objSize bogus).1
    let entrySize := entrySizeAt s'.mem (tvlogIndex s'.tailCnt)
    entrySize ≠ tvlogEntrySize objSize → tvlogIndex (s'.tailCnt + entrySize) = 0

/-- The write-set header never wraps: without an open write set there is room for it in front
of the end of the ring, so that opening one inserts no filler; `start_tail_cnt` is the tail
before that; and whatever is appended, fillers and padding end at index 0. -/
structure HdrNeverWraps (s : State) : Prop where
  fits : s.curWrtSet = none → tvlogIndex s.tailCnt + wsEntrySize < tvlogSize
  noBogus : (openWs s).2 = false
  start : ∀ w, (openWs s).1.curWrtSet = some w →
    startTailCntAt (openWs s).1.mem w = s.curWrtSet.elim s.tailCnt fun _ => s.openCnt
  wsAlloc : s.curWrtSet = none → AllocEnds s sizeofWrtSet false
  alloc : ∀ objSize, SmallEntry objSize → AllocEnds (openWs s).1 objSize (openWs s).2

/-- The `n` bytes from `i` on are outside the body of the write set at `w`. -/
def Outside (w i n : ℕ) : Prop :=
  i + n ≤ w + sizeofCpyHdrStruct ∨ w + sizeofWrtSetStruct ≤ i

instance (w i n : ℕ) : Decidable (Outside w i n) := inferInstanceAs (Decidable (_ ∨ _))

/-- What an append writes is outside the body of the write set at `w`: the header of a filler
at the tail `t`, and the header and the object of the entry. -/
def SparesWs (w t objSize : ℕ) (locked : Bool) : Prop :=
  let entrySize := tvlogEntrySize objSize
  let t' := if tvlogWraps t entrySize then t + tvlogBogusSize t else t
  (tvlogWraps t entrySize → Outside w (tvlogIndex t) sizeofCpyHdrStruct) ∧
    Outside w (tvlogIndex t') (sizeofCpyHdrStruct + if locked then objSize else 0)

instance (w t n : ℕ) (b : Bool) : Decidable (SparesWs w t n b) :=
  inferInstanceAs (Decidable ((_ → _) ∧ _))

/-- No append writes over the body of the open write set. -/
def Spares (s : State) : Action → Prop
  | .append _ objSize obj => ∀ w ∈ s.curWrtSet, SparesWs w s.tailCnt objSize obj.isSome
  | _ => True

instance (s : State) : ∀ a, Decidable (Spares s a)
  | .append _ _ _ => inferInstanceAs (Decidable (∀ w ∈ s.curWrtSet, _))
  | .commit _ | .abort | .store _ _ => inferInstanceAs (Decidable True)

/-! ### The fields of a header -/

variable {s s' : State} {m m' : ℕ → UInt8} {i n t w : ℕ}

theorem mem_bogusHdr {size : ℕ} {x : Store} (h : x ∈ bogusHdr i size) :
    i ≤ x.addr ∧ x.addr < i + sizeofCpyHdrStruct := by
  simp only [bogusHdr, sizeofCpyHdrStruct, List.mem_append] at h ⊢
  obtain (h | h) | h := h <;> have := mem_word h <;> omega

theorem mem_allocHdr {h : ObjHdr} {x : Store} (hx : x ∈ allocHdr i h) :
    i ≤ x.addr ∧ x.addr < i + sizeofCpyHdrStruct := by
  simp only [allocHdr, sizeofCpyHdrStruct, List.mem_append] at hx ⊢
  obtain ((h | h) | h) | h := hx <;> have := mem_word h <;> omega

theorem mem_copyHdr {pWs pActVhdr : ℕ} {x : Store} (h : x ∈ copyHdr pWs pActVhdr i) :
    i ≤ x.addr ∧ x.addr < i + sizeofCpyHdrStruct := by
  simp only [copyHdr, sizeofCpyHdrStruct, List.mem_append] at h ⊢
  obtain (h | h) | h := h <;> have := mem_word h <;> omega

theorem entrySizeAt_allocHdr {h : ObjHdr} (hobj : h.objSize < 2 ^ 32)
    (hpad : h.paddingSize < 2 ^ 16) : entrySizeAt (put m (allocHdr i h)) i = getEntrySize h := by
  have h1 : load (put m (allocHdr i h)) (i + 48) 4 = h.objSize := by
    simp only [allocHdr, put_append]
    rw [load_put_word_of_outside (by omega), load_put_word hobj]
  have h2 : load (put m (allocHdr i h)) (i + 52) 2 = h.paddingSize := by
    simp only [allocHdr, put_append]
    rw [load_put_word hpad]
  rw [entrySizeAt, h1, h2]

theorem entrySizeAt_wsHdr : entrySizeAt (put m (wsHdr s i)) i = entrySizeAt m i := by
  have h : ∀ j w, i + 48 ≤ j → j + w ≤ i + 54 → load (put m (wsHdr s i)) j w = load m j w := by
    intro j w h1 h2
    simp only [wsHdr, put_append]
    rw [load_put_word_of_outside (by omega), load_put_word_of_outside (by omega),
      load_put_word_of_outside (by omega), load_put_word_of_outside (by omega),
      load_put_word_of_outside (by omega), load_put_word_of_outside (by omega),
      load_put_word_of_outside (by omega)]
  rw [entrySizeAt, h _ _ (by omega) (by omega), h _ _ (by omega) (by omega), entrySizeAt]

theorem startTailCntAt_wsHdr (h : s.tailCnt < 2 ^ 64) :
    startTailCntAt (put m (wsHdr s i)) i = s.tailCnt := by
  simp only [startTailCntAt, wsHdr, put_append]
  rw [load_put_word_of_outside (by omega), load_put_word h]

theorem entrySizeAt_copyHdr {pWs pActVhdr : ℕ} :
    entrySizeAt (put m (copyHdr pWs pActVhdr i)) i = entrySizeAt m i := by
  have h : ∀ j w, i + 48 ≤ j → j + w ≤ i + 54 →
      load (put m (copyHdr pWs pActVhdr i)) j w = load m j w := by
    intro j w h1 h2
    simp only [copyHdr, put_append]
    rw [load_put_word_of_outside (by omega), load_put_word_of_outside (by omega),
      load_put_word_of_outside (by omega)]
  rw [entrySizeAt, h _ _ (by omega) (by omega), h _ _ (by omega) (by omega), entrySizeAt]

/-- The two memories hold the same body of the write set at `w`. -/
def SameBody (w : ℕ) (m m' : ℕ → UInt8) : Prop :=
  ∀ k, w + sizeofCpyHdrStruct ≤ k → k < w + sizeofWrtSetStruct → m' k = m k

theorem SameBody.trans {m₁ : ℕ → UInt8} (h : SameBody w m m₁) (h' : SameBody w m₁ m') :
    SameBody w m m' :=
  fun k h1 h2 => (h' k h1 h2).trans (h k h1 h2)

theorem SameBody.startTailCntAt (h : SameBody w m m') :
    startTailCntAt m' w = startTailCntAt m w := by
  refine load_congr fun k h1 h2 => h k ?_ ?_
  · rw [sizeofCpyHdrStruct]
    omega
  · rw [sizeofWrtSetStruct, sizeofCpyHdrStruct, sizeofWrtSet]
    omega

theorem Outside.put {ss : List Store} (h : Outside w i n)
    (hss : ∀ x ∈ ss, i ≤ x.addr ∧ x.addr < i + n) : SameBody w m (put m ss) := by
  intro k h1 h2
  refine put_of_notMem fun x hx heq => ?_
  have hx := hss x hx
  rw [Outside] at h
  omega

theorem Outside.copy {src : ℕ → UInt8} (h : Outside w i n) : SameBody w m (copy m i n src) := by
  intro k h1 h2
  refine copy_of_outside ?_
  rw [Outside] at h
  omega

theorem Outside.mono {j k : ℕ} (h : Outside w i n) (h1 : i ≤ j) (h2 : j + k ≤ i + n) :
    Outside w j k := by
  rw [Outside] at h ⊢
  omega

/-! ### One allocation -/

theorem tvlogIndex_ulong (n : ℕ) : tvlogIndex (ulong n) = tvlogIndex n :=
  Nat.mod_mod_of_dvd n (by decide)

theorem ulong_lt (n : ℕ) : ulong n < 2 ^ 64 := Nat.mod_lt _ (by decide)

theorem dvd_ulong (h : 64 ∣ n) : 64 ∣ ulong n := (Nat.dvd_mod_iff (by decide)).mpr h

/-- What one call of `tvlog_alloc` does. -/
structure Allocated (s : State) (objSize : ℕ) (s' : State) (bogus : Bool) : Prop where
  bogus_iff : bogus = true ↔ tvlogWraps s.tailCnt (tvlogEntrySize objSize)
  tail : tvlogIndex s'.tailCnt =
    if tvlogWraps s.tailCnt (tvlogEntrySize objSize) then 0 else tvlogIndex s.tailCnt
  tail_of_not : bogus = false → s'.tailCnt = s.tailCnt
  inside : tvlogIndex s'.tailCnt + tvlogEntrySize objSize < tvlogSize
  aligned : 64 ∣ s'.tailCnt
  lt : s'.tailCnt < 2 ^ 64
  entrySize : entrySizeAt s'.mem (tvlogIndex s'.tailCnt) = tvlogEntrySize objSize +
    addExtraPadding s'.tailCnt (tvlogEntrySize objSize) sizeofWrtSetStruct bogus
  cur : s'.curWrtSet = s.curWrtSet
  openCnt : s'.openCnt = s.openCnt
  copies : s'.copies = s.copies
  body : ∀ w, (tvlogWraps s.tailCnt (tvlogEntrySize objSize) →
      Outside w (tvlogIndex s.tailCnt) sizeofCpyHdrStruct) →
    Outside w (tvlogIndex s'.tailCnt) sizeofCpyHdrStruct → SameBody w s.mem s'.mem

theorem SmallEntry.pos (h : SmallEntry n) : 0 < tvlogEntrySize n := by
  have hn : n < tvlogSize := h.1.trans (by decide)
  rw [tvlogEntrySize_eq hn]
  omega

/-- What `makeRoom` leaves the header to be written. -/
theorem Allocated.of_room {r : State} {b : Bool} (hn : SmallEntry n)
    (halloc : tvlogAlloc s n false =
      ({ r with mem := put r.mem (allocHdr (tvlogIndex r.tailCnt) (tvlogAllocHdr r.tailCnt n b)) },
        b))
    (hb : b = true ↔ tvlogWraps s.tailCnt (tvlogEntrySize n))
    (htail : tvlogIndex r.tailCnt =
      if tvlogWraps s.tailCnt (tvlogEntrySize n) then 0 else tvlogIndex s.tailCnt)
    (hnot : b = false → r.tailCnt = s.tailCnt)
    (hin : tvlogIndex r.tailCnt + tvlogEntrySize n < tvlogSize) (h64 : 64 ∣ r.tailCnt)
    (hlt : r.tailCnt < 2 ^ 64) (hcur : r.curWrtSet = s.curWrtSet) (hopen : r.openCnt = s.openCnt)
    (hcopies : r.copies = s.copies)
    (hbody : ∀ w, (tvlogWraps s.tailCnt (tvlogEntrySize n) →
      Outside w (tvlogIndex s.tailCnt) sizeofCpyHdrStruct) → SameBody w s.mem r.mem) :
    Allocated s n (tvlogAlloc s n false).1 (tvlogAlloc s n false).2 := by
  have hu : n < 2 ^ 32 := hn.1.trans (by decide)
  rw [halloc]
  refine ⟨hb, htail, hnot, hin, h64, hlt, ?_, hcur, hopen, hcopies, fun w h1 h2 => ?_⟩
  · rw [← getEntrySize_allocHdr b hu hin]
    exact entrySizeAt_allocHdr hu (Nat.mod_lt _ (by decide))
  · exact (hbody w h1).trans (h2.put fun x hx => mem_allocHdr hx)

/-- A filler ends at index 0. -/
theorem tvlogIndex_bogus (t : ℕ) : tvlogIndex (t + tvlogBogusSize t) = 0 := by
  have hidx : tvlogIndex t < tvlogSize := Nat.mod_lt _ (by decide)
  refine Ring.index_end ?_
  rw [← tvlogIndex, tvlogBogusSize]
  omega

/-- A call of `tvlog_alloc` for a small entry. -/
theorem alloc_spec (hn : SmallEntry n) (h64 : 64 ∣ s.tailCnt) (hlt : s.tailCnt < 2 ^ 64) :
    Allocated s n (tvlogAlloc s n false).1 (tvlogAlloc s n false).2 := by
  have hpos := hn.pos
  have hsmall : tvlogEntrySize n < tvlogSize := hn.2.trans (by decide)
  by_cases hw : tvlogWraps s.tailCnt (tvlogEntrySize n)
  · -- behind the filler the ring starts again
    have hroom : makeRoom s (tvlogEntrySize n) false = (putBogus s, true) := if_pos hw
    have h0 : tvlogIndex (putBogus s).tailCnt = 0 := by
      show tvlogIndex (ulong (s.tailCnt + tvlogBogusSize s.tailCnt)) = 0
      rw [tvlogIndex_ulong, tvlogIndex_bogus]
    have hidx64 : 64 ∣ tvlogIndex s.tailCnt := (Nat.dvd_mod_iff (by decide)).mpr h64
    have hbogus : 64 ∣ tvlogBogusSize s.tailCnt := Nat.dvd_sub (by decide) hidx64
    refine .of_room (r := putBogus s) (b := true) hn ?_ (iff_of_true rfl hw) ?_ ?_ ?_ ?_
      (ulong_lt _) rfl rfl rfl ?_
    · simp only [tvlogAlloc, hroom]
    · rw [h0, if_pos hw]
    · intro hb
      cases hb
    · rw [h0]
      omega
    · exact dvd_ulong (Nat.dvd_add h64 hbogus)
    · exact fun w h => (h hw).put fun x hx => mem_bogusHdr hx
  · have hroom : makeRoom s (tvlogEntrySize n) false = (s, false) := if_neg hw
    refine .of_room (r := s) (b := false) hn ?_ (iff_of_false Bool.false_ne_true hw) ?_
      (fun _ => rfl) (end_lt_of_not_wraps hpos hsmall hw) h64 hlt rfl rfl rfl
      (fun w _ k _ _ => rfl)
    · simp only [tvlogAlloc, hroom]
    · rw [if_neg hw]

/-- An entry with its padding either leaves room for a write-set header behind it or ends at
index 0. -/
theorem room_behind {e : ℕ} {b : Bool} (hin : tvlogIndex t + e < tvlogSize) (hpos : 0 < e)
    (hsmall : e < 2 ^ 16) (hb : b = true → tvlogIndex t = 0) :
    let pad := addExtraPadding t e sizeofWrtSetStruct b
    (pad ≠ 0 → tvlogIndex (t + (e + pad)) = 0) ∧
      tvlogIndex (t + (e + pad)) + wsEntrySize < tvlogSize := by
  have halign : alignUintToCacheline (uint (sizeofWrtSetStruct + sizeofCpyHdrStruct)) = 192 := by
    decide
  have hws : wsEntrySize = 128 := by decide
  have hsize : tvlogSize = 2 ^ 20 := rfl
  have hend : tvlogIndex (t + e) = tvlogIndex t + e := Ring.index_add hin
  have hlt : tvlogIndex (t + (e + 192)) < tvlogIndex t ↔
      tvlogSize ≤ tvlogIndex t + (e + 192) := Ring.index_lt_iff (by omega) (by omega)
  simp only [addExtraPadding, halign, Nat.add_assoc, hlt, hend]
  split
  · -- the padding goes up to the end of the ring
    have h0 : tvlogIndex (t + (e + (tvlogSize - (tvlogIndex t + e)))) = 0 := by
      refine Ring.index_end ?_
      rw [← tvlogIndex]
      omega
    rw [h0, hws]
    exact ⟨fun _ => rfl, by decide⟩
  · rename_i hno
    rw [Nat.add_zero, hend, hws]
    refine ⟨fun h => absurd rfl h, ?_⟩
    cases b with
    | true =>
      have := hb rfl
      omega
    | false =>
      have : ¬ tvlogSize ≤ tvlogIndex t + (e + 192) := fun h => hno ⟨rfl, h⟩
      omega

/-- Behind the entry at the tail a write-set header has room. -/
theorem Allocated.room {b : Bool} (h : Allocated s n s' b) (hn : SmallEntry n) :
    tvlogIndex (s'.tailCnt + entrySizeAt s'.mem (tvlogIndex s'.tailCnt)) + wsEntrySize <
      tvlogSize := by
  rw [h.entrySize]
  refine (room_behind h.inside hn.pos hn.2 fun hb => ?_).2
  rw [h.tail, if_pos (h.bogus_iff.mp hb)]

theorem Allocated.ends {b : Bool} (hn : SmallEntry n)
    (h : Allocated s n (tvlogAlloc s n b).1 (tvlogAlloc s n b).2) : AllocEnds s n b where
  filler hw := by rw [h.tail, if_pos hw]
  padding := by
    intro s' entrySize hne
    simp only [entrySize, s'] at hne ⊢
    rw [h.entrySize] at hne ⊢
    refine (room_behind h.inside hn.pos hn.2 fun hb => ?_).1 (by omega)
    rw [h.tail, if_pos (h.bogus_iff.mp hb)]

theorem Allocated.entry_aligned {b : Bool} (h : Allocated s n s' b) :
    64 ∣ s'.tailCnt + entrySizeAt s'.mem (tvlogIndex s'.tailCnt) := by
  rw [h.entrySize]
  exact Nat.dvd_add h.aligned (dvd_allocSize _ h.aligned (dvd_tvlogEntrySize _))

/-! ### The invariant -/

/-- The write set at `w` is open, and its body is as it was written. -/
structure IsOpen (s : State) (w : ℕ) : Prop where
  index : tvlogIndex s.openCnt = w
  aligned : 64 ∣ s.openCnt
  lt : s.openCnt < 2 ^ 64
  room : tvlogIndex s.openCnt + wsEntrySize < tvlogSize
  start : startTailCntAt s.mem w = s.openCnt
  copies : ∀ p ∈ s.copies, Outside w p.1 p.2

/-- Behind the tail a write-set header always has room, and so it had where the open write set
begins. -/
structure Inv (s : State) : Prop where
  aligned : 64 ∣ s.tailCnt
  lt : s.tailCnt < 2 ^ 64
  room : tvlogIndex s.tailCnt + wsEntrySize < tvlogSize
  isOpen : ∀ w, s.curWrtSet = some w → IsOpen s w

theorem Inv.init (h : IsInit s) : Inv s := by
  obtain ⟨h1, h2, -⟩ := h
  refine ⟨?_, ?_, ?_, ?_⟩
  · rw [h1]
    exact Nat.dvd_zero _
  · rw [h1]
    decide
  · rw [h1]
    decide
  · intro w hw
    rw [h2] at hw
    cases hw

theorem wsEntrySize_eq : wsEntrySize = 128 := by decide

/-- Without an open write set none of the next header needs a filler. -/
theorem Inv.not_wraps (h : Inv s) : ¬ tvlogWraps s.tailCnt wsEntrySize := by
  have hroom := h.room
  intro hw
  rw [tvlogWraps, tvlogIndex, tvlogIndex, Ring.index_lt_iff (by decide) (by decide)] at hw
  rw [tvlogIndex] at hroom
  omega

/-- A new write set is far from what the append that opens it writes. -/
theorem sparesWs_of_new {t' : ℕ} (hroom : tvlogIndex t + wsEntrySize < tvlogSize)
    (ht : tvlogIndex t' = tvlogIndex (t + (wsEntrySize +
      addExtraPadding t wsEntrySize sizeofWrtSetStruct false))) (hn : SmallEntry n)
    (locked : Bool) : SparesWs (tvlogIndex t) t' n locked := by
  have hpos := hn.pos
  have hsmall := hn.2
  have hobj := hn.1
  have hsize : tvlogSize = 2 ^ 20 := rfl
  have hwraps : tvlogWraps t' (tvlogEntrySize n) ↔
      tvlogSize ≤ tvlogIndex t' + tvlogEntrySize n := Ring.index_lt_iff hpos (by omega)
  have hlen : (if locked then n else 0) ≤ n := by split <;> omega
  have hpad := addExtraPadding_le false hroom
  -- the next entry starts right behind the header, or at index 0
  have hnext : tvlogIndex t' = tvlogIndex t + wsEntrySize ∨
      tvlogIndex t' = 0 ∧ tvlogSize ≤ tvlogIndex t + wsEntrySize + 192 := by
    have hends := (room_behind (b := false) hroom (by decide) (by decide) nofun).1
    rw [ht]
    by_cases h0 : addExtraPadding t wsEntrySize sizeofWrtSetStruct false = 0
    · rw [h0]
      exact .inl (Ring.index_add hroom)
    · have hidx := hends h0
      refine .inr ⟨hidx, ?_⟩
      by_contra hlt
      have := Ring.index_add (n := tvlogSize) (a := t) (k := wsEntrySize +
        addExtraPadding t wsEntrySize sizeofWrtSetStruct false) (by rw [← tvlogIndex]; omega)
      rw [← tvlogIndex, ← tvlogIndex, hidx] at this
      have := hpad.2
      rw [wsEntrySize_eq] at *
      omega
  rw [wsEntrySize_eq] at hroom hnext
  refine ⟨fun hw => ?_, ?_⟩
  · rw [Outside, sizeofWrtSetStruct, sizeofCpyHdrStruct, sizeofWrtSet]
    omega
  · rw [Outside, sizeofWrtSetStruct, sizeofCpyHdrStruct, sizeofWrtSet]
    split
    · rename_i hw
      rw [hwraps] at hw
      rw [tvlogIndex_bogus]
      omega
    · omega

/-! ### The calls -/

/-- Opening a write set inserts no filler, and what follows in the same append is far from the
new header. -/
theorem Inv.openWs (h : Inv s) :
    (openWs s).2 = false ∧ Inv (openWs s).1 ∧
      ∃ w, (TvlogBytes.openWs s).1.curWrtSet = some w ∧
        (s.curWrtSet = none → ∀ n, SmallEntry n → ∀ locked,
          SparesWs w (TvlogBytes.openWs s).1.tailCnt n locked) := by
  rcases hcur : s.curWrtSet with _ | w
  · have hn : SmallEntry sizeofWrtSet := by decide
    have hspec := alloc_spec hn h.aligned h.lt
    have hlen := hspec.entrySize
    have hroom := hspec.room hn
    have haligned := hspec.entry_aligned
    have hbogus : (tvlogAlloc s sizeofWrtSet false).2 = false := by
      rw [Bool.eq_false_iff]
      exact fun hb => h.not_wraps (hspec.bogus_iff.mp hb)
    have htail := hspec.tail_of_not hbogus
    rw [hbogus] at hlen
    rcases halloc : tvlogAlloc s sizeofWrtSet false with ⟨r, b⟩
    rw [halloc] at hbogus htail hlen hroom haligned
    simp only at hbogus htail hlen hroom haligned
    subst hbogus
    simp only [TvlogBytes.openWs, hcur, halloc, entrySizeAt_wsHdr, true_and]
    refine ⟨⟨dvd_ulong haligned, ulong_lt _, ?_, ?_⟩, _, rfl, fun _ n hsmall locked => ?_⟩
    · rw [tvlogIndex_ulong]
      exact hroom
    · intro w hw
      obtain rfl := Option.some_inj.mp hw
      refine ⟨by rw [htail], h.aligned, h.lt, h.room, ?_, nofun⟩
      show startTailCntAt (put r.mem (wsHdr r (tvlogIndex r.tailCnt))) _ = s.tailCnt
      rw [startTailCntAt_wsHdr (by rw [htail]; exact h.lt), htail]
    · rw [htail]
      refine sparesWs_of_new h.room ?_ hsmall locked
      rw [htail] at hlen
      rw [tvlogIndex_ulong, hlen]
      rfl
  · have heq : TvlogBytes.openWs s = (s, false) := by simp only [TvlogBytes.openWs, hcur]
    rw [heq]
    exact ⟨rfl, h, w, hcur, nofun⟩

/-- After `tvlog_append_begin` the entry at the tail is written beside the body of the open
write set, and behind it there is room. -/
structure Begun (s s' : State) (objSize w : ℕ) : Prop where
  inv : Inv s'
  cur : s'.curWrtSet = some w
  room : tvlogIndex (s'.tailCnt + entrySizeAt s'.mem (tvlogIndex s'.tailCnt)) + wsEntrySize <
    tvlogSize
  aligned : 64 ∣ s'.tailCnt + entrySizeAt s'.mem (tvlogIndex s'.tailCnt)

theorem Inv.appendBegin {pActVhdr : ℕ} {locked : Bool} (h : Inv s) (hn : SmallEntry n)
    (hok : ∀ w ∈ s.curWrtSet, SparesWs w s.tailCnt n locked) :
    ∃ w, Begun s (tvlogAppendBegin s pActVhdr n).1 n w ∧
      Outside w (tvlogIndex (tvlogAppendBegin s pActVhdr n).1.tailCnt)
        (sizeofCpyHdrStruct + if locked then n else 0) := by
  obtain ⟨hbogus, hinv, w, hw, hnew⟩ := h.openWs
  rcases hopen : TvlogBytes.openWs s with ⟨r, b⟩
  have hold : s.curWrtSet ≠ none → r = s := by
    intro hne
    obtain ⟨w', hw'⟩ := Option.ne_none_iff_exists'.mp hne
    have heq : TvlogBytes.openWs s = (s, false) := by simp only [TvlogBytes.openWs, hw']
    rw [heq] at hopen
    exact (Prod.mk.inj hopen).1.symm
  rw [hopen] at hbogus hinv hw hnew
  simp only at hbogus hinv hw hnew
  subst hbogus
  have hspares : SparesWs w r.tailCnt n locked := by
    by_cases hcur : s.curWrtSet = none
    · exact hnew hcur n hn locked
    · have hr := hold hcur
      rw [hr] at hw ⊢
      exact hok w hw
  have hspec := alloc_spec hn hinv.aligned hinv.lt
  rcases halloc : tvlogAlloc r n false with ⟨r', b⟩
  rw [halloc] at hspec
  simp only at hspec
  -- where the header of the copy is
  have hidx : tvlogIndex r'.tailCnt = tvlogIndex
      (if tvlogWraps r.tailCnt (tvlogEntrySize n)
        then r.tailCnt + tvlogBogusSize r.tailCnt else r.tailCnt) := by
    rw [hspec.tail]
    split
    · rw [tvlogIndex_bogus]
    · rfl
  have hout : Outside w (tvlogIndex r'.tailCnt)
      (sizeofCpyHdrStruct + if locked then n else 0) := by
    rw [hidx]
    exact hspares.2
  have hhdr : Outside w (tvlogIndex r'.tailCnt) sizeofCpyHdrStruct :=
    hout.mono (le_refl _) (by omega)
  have hcur' : r'.curWrtSet = some w := hspec.cur.trans hw
  have hwopen := hinv.isOpen w hw
  have hcopy : SameBody w r'.mem (put r'.mem (copyHdr (r'.buffer + w + sizeofCpyHdrStruct)
      pActVhdr (tvlogIndex r'.tailCnt))) := hhdr.put fun x hx => mem_copyHdr hx
  have hbody := (hspec.body w hspares.1 hhdr).trans hcopy
  have hbegin : tvlogAppendBegin s pActVhdr n = ({ r' with
      mem := put r'.mem (copyHdr (r'.buffer + w + sizeofCpyHdrStruct) pActVhdr
        (tvlogIndex r'.tailCnt)) }, b) := by
    simp only [tvlogAppendBegin, hopen, halloc, hcur']
  rw [hbegin]
  refine ⟨w, ⟨⟨hspec.aligned, hspec.lt, ?_, ?_⟩, hcur', ?_, ?_⟩, hout⟩
  · -- the tail has not moved, or it is at index 0
    show tvlogIndex r'.tailCnt + wsEntrySize < tvlogSize
    rw [hspec.tail]
    split
    · decide
    · exact hinv.room
  · intro w' hw'
    obtain rfl := Option.some_inj.mp (hcur'.symm.trans hw')
    refine ⟨?_, ?_, ?_, ?_, hbody.startTailCntAt.trans (hwopen.start.trans hspec.openCnt.symm), ?_⟩
    · exact (congrArg tvlogIndex hspec.openCnt).trans hwopen.index
    · exact hspec.openCnt.symm ▸ hwopen.aligned
    · exact hspec.openCnt.symm ▸ hwopen.lt
    · exact hspec.openCnt.symm ▸ hwopen.room
    · exact hspec.copies.symm ▸ hwopen.copies
  · simp only [entrySizeAt_copyHdr]
    exact hspec.room hn
  · simp only [entrySizeAt_copyHdr]
    exact hspec.entry_aligned

/-- An append keeps the invariant, whether the lock is taken or not. -/
theorem Inv.append {pActVhdr : ℕ} {obj : Option (ℕ → UInt8)} (h : Inv s) (hn : SmallEntry n)
    (hok : ∀ w ∈ s.curWrtSet, SparesWs w s.tailCnt n obj.isSome) :
    Inv (tvlogAppend s pActVhdr n obj) := by
  obtain ⟨w, hbegun, hout⟩ : ∃ w, Begun s (tvlogAppendBegin s pActVhdr n).1 n w ∧ _ :=
    h.appendBegin hn hok
  rcases hbegin : tvlogAppendBegin s pActVhdr n with ⟨r, b⟩
  rw [hbegin] at hbegun hout
  simp only at hbegun hout
  simp only [tvlogAppend, hbegin]
  cases obj with
  | none => exact hbegun.inv
  | some obj =>
    have hinv := hbegun.inv
    have hcur := hbegun.cur
    have hwopen := hinv.isOpen w hcur
    have hobj : Outside w (tvlogIndex r.tailCnt + sizeofCpyHdrStruct) n :=
      hout.mono (by omega) (by simp only [Option.isSome_some, if_true]; omega)
    -- the object is written behind the sizes in its header
    have hlen : entrySizeAt (copy r.mem (tvlogIndex r.tailCnt + sizeofCpyHdrStruct) n obj)
        (tvlogIndex r.tailCnt) = entrySizeAt r.mem (tvlogIndex r.tailCnt) := by
      rw [sizeofCpyHdrStruct, entrySizeAt, load_copy (by omega), load_copy (by omega), entrySizeAt]
    simp only [tvlogAppendEnd, hlen, hcur]
    refine ⟨dvd_ulong hbegun.aligned, ulong_lt _, ?_, fun w' hw' => ?_⟩
    · rw [tvlogIndex_ulong]
      exact hbegun.room
    · obtain rfl := Option.some_inj.mp hw'
      refine ⟨hwopen.index, hwopen.aligned, hwopen.lt, hwopen.room, ?_, ?_⟩
      · simp only [startTailCntAt]
        rw [load_put_word_of_outside (by omega)]
        exact hobj.copy.startTailCntAt.trans hwopen.start
      · intro p hp
        rcases List.mem_cons.mp hp with rfl | hp
        · exact hobj
        · exact hwopen.copies p hp

/-- An abort goes back to where the write set was opened. -/
theorem Inv.abort (h : Inv s) (hw : s.curWrtSet = some w) : Inv (tvlogAbort s w) := by
  have ho := h.isOpen w hw
  have htail : (tvlogAbort s w).tailCnt = s.openCnt := ho.start
  refine ⟨?_, ?_, ?_, nofun⟩
  · rw [htail]
    exact ho.aligned
  · rw [htail]
    exact ho.lt
  · rw [htail]
    exact ho.room

theorem Inv.step {a : Action} (h : Inv s) (hok : Spares s a) (hs : step s a = some s') :
    Inv s' := by
  cases a with
  | append pActVhdr objSize obj =>
    simp only [TvlogBytes.step, Option.ite_none_right_eq_some] at hs
    obtain ⟨hn, hs⟩ := hs
    obtain rfl := Option.some_inj.mp hs
    exact h.append hn hok
  | commit mem =>
    simp only [TvlogBytes.step, Option.ite_none_left_eq_some] at hs
    obtain rfl := Option.some_inj.mp hs.2
    exact ⟨h.aligned, h.lt, h.room, nofun⟩
  | abort =>
    rw [TvlogBytes.step] at hs
    split at hs
    · cases hs
    · rename_i w hw
      obtain rfl := Option.some_inj.mp hs
      exact h.abort hw
  | store addr byte =>
    simp only [TvlogBytes.step, Option.ite_none_right_eq_some] at hs
    obtain ⟨⟨p, hp, h1, h2⟩, hs⟩ := hs
    obtain rfl := Option.some_inj.mp hs
    refine ⟨h.aligned, h.lt, h.room, fun w hw => ?_⟩
    have ho := h.isOpen w hw
    -- the copies are beside the body
    have hbyte : Outside w addr 1 := (ho.copies p hp).mono h1 (by omega)
    have hbody : SameBody w s.mem (put s.mem [⟨addr, byte⟩]) := by
      refine hbyte.put fun x hx => ?_
      rw [List.mem_singleton] at hx
      subst hx
      exact ⟨le_refl _, Nat.lt_succ_self _⟩
    exact ⟨ho.index, ho.aligned, ho.lt, ho.room, hbody.startTailCntAt.trans ho.start, ho.copies⟩

theorem openCnt_openWs (s : State) :
    (openWs s).1.openCnt = s.curWrtSet.elim s.tailCnt fun _ => s.openCnt := by
  rcases hcur : s.curWrtSet with _ | w <;> simp only [openWs, hcur, Option.elim]

theorem Inv.hdrNeverWraps (h : Inv s) : HdrNeverWraps s := by
  obtain ⟨hbogus, hinv, w, hw, -⟩ := h.openWs
  refine ⟨fun _ => h.room, hbogus, fun w hw => ?_, fun _ => ?_, ?_⟩
  · rw [← openCnt_openWs]
    exact (hinv.isOpen w hw).start
  · have hn : SmallEntry sizeofWrtSet := by decide
    exact (alloc_spec hn h.aligned h.lt).ends hn
  · intro n hn
    rw [hbogus]
    exact (alloc_spec hn hinv.aligned hinv.lt).ends hn

/-- In every state of a run in which no append writes over the body of the open write set, the
write-set header never wraps. -/
theorem hdrNeverWraps_of_reach (h : Run.Reach IsInit step Spares s) : HdrNeverWraps s :=
  (h.invariant (fun _ => Inv.init) fun _ _ _ hi hok hs => hi.step hok hs).hdrNeverWraps

/-- A log that `tvlog_create` has made. -/
def fresh : State := ⟨0, none, fun _ => 0, 0x7f0000000000, 0x1000, 0, []⟩

theorem fresh_isInit : IsInit fresh := ⟨rfl, rfl, rfl⟩

/-- Sixteen locks of 65408 bytes leave 896 bytes of the ring; the next one fails behind a filler,
and the transaction aborts. -/
theorem hdrNeverWraps_after_filler : ∃ s, HdrNeverWraps s ∧ s.tailCnt = 0 := by
  have hex : (Run.exec step Spares fresh (List.replicate 16 (.append 8 65408 (some fun _ => 0)) ++
      [.append 8 1000 none, .abort])).map (fun s => decide (s.tailCnt = 0)) = some true := by
    decide +kernel
  obtain ⟨s, hr, h0⟩ := Run.Reach.exists_of_exec (.init fresh_isInit) hex
  exact ⟨s, hdrNeverWraps_of_reach hr, h0⟩

/-- An object of which the bytes 16 to 19 are `0xfffffffe` and the bytes 24 to 31 the number
`0xfffc0`. -/
def hostileObj : ℕ → UInt8 :=
  put (fun _ => 0) (word 16 4 0xfffffffe ++ word 24 8 0xfffc0)

/-- The seventeenth lock of a transaction writes its copy over the write-set header.  The abort
finds no object to unlock there and goes back to 64 bytes in front of the end of the ring. -/
theorem abort_to_overwritten_tail :
    ¬ ∀ s, Run.Reach IsInit step Run.any s → HdrNeverWraps s := by
  intro h
  have hex : (Run.exec step Run.any fresh
      (List.replicate 17 (.append 8 65408 (some hostileObj)))).map (fun s => decide
        (s.curWrtSet = some 0 ∧ load s.mem 72 4 = 0 ∧ startTailCntAt s.mem 0 = 0xfffc0)) =
          some true := by decide +kernel
  obtain ⟨s, hr, hcur, hnum⟩ := Run.Reach.exists_of_exec (.init fresh_isInit) hex
  have hstep : step s .abort = some (tvlogAbort s 0) := by
    simp only [step, hcur]
  have hfits := (h _ (hr.step trivial hstep)).fits rfl
  change tvlogIndex (startTailCntAt s.mem 0) + wsEntrySize < tvlogSize at hfits
  rw [hnum.2] at hfits
  revert hfits
  decide

end TimeStone.TvlogBytes
