/-
The transient version log parses into write sets.

`tvlogSets` reads the log from its head: a write-set header, the entries that
`ws_for_each` visits behind it, and so on until the tail.  `Parses` says that it
always gets there, that `prev_head_cnt` is one of the starts it meets or the tail,
and that the copies it finds in a write set are those for which
`tvlog_append_end` was called, in that order.  Commit and abort walk the open
write set in the same way to stamp its copies and to release their locks.

The filler is the weak point: `tvlog_append_begin` moves the tail behind it, but
only `tvlog_append_end` counts it.  A lock that inserts a filler and then fails
leaves an entry behind that `num_objs` misses, and the last object locked in the
write set is lost from every later walk.

* `parses_of_locksOk` — when no failed lock inserts a filler, every state of every
  run parses, commit stamps and unlocks the objects that were locked, and abort
  unlocks them;
* `filler_of_failed_lock` — a run in which a failed lock inserts a filler, and
  the commit forgets an object.
-/
import TimeStone.TvlogRing
import TimeStone.Lib.Run

namespace TimeStone

/-! ### Parsing -/

/-- The write sets from `cnt` to the tail: the start of each one and the entries
that `ws_for_each` visits.  `none` when the log does not parse. -/
def tvlogSets (T : Tvlog) : ℕ → ℕ → Option (List (ℕ × List (ℕ × ObjHdr)))
  | 0, _ => none
  | fuel + 1, cnt =>
    if cnt = T.tailCnt then some []
    else if T.tailCnt < cnt then none
    else do
      let (h, ws) ← tvlogAtWss T cnt
      let (es, d) ← wsEntries T h ws
      let sets ← tvlogSets T fuel d
      some ((cnt, es) :: sets)

/-- The copies among some entries of the log, by their counters. -/
def copies (T : Tvlog) (es : List (ℕ × ObjHdr)) : List ℕ :=
  (es.filter fun p => T.types (tvlogIndex p.1) ≠ .bogus).map Prod.fst

/-- The bytes from `c` to `d` are the write sets `l`. -/
inductive Sets (T : Tvlog) : ℕ → List (ℕ × List (ℕ × ObjHdr)) → ℕ → Prop
  | nil (c : ℕ) : Sets T c [] c
  | cons {c m d : ℕ} {h : ObjHdr} {objs : List (ℕ × ObjHdr)}
      {l : List (ℕ × List (ℕ × ObjHdr))} (ws : IsWs T c h objs m) (rest : Sets T m l d) :
      Sets T c ((c, objs) :: l) d

section Sets

variable {T T' : Tvlog} {c m d x : ℕ} {l l₁ l₂ : List (ℕ × List (ℕ × ObjHdr))}

theorem Sets.length_le (h : Sets T c l d) : c + l.length ≤ d := by
  induction h with
  | nil c => simp
  | cons ws _ ih =>
    have := ws.lt
    simp only [List.length_cons]
    omega

theorem Sets.append (h1 : Sets T c l₁ m) (h2 : Sets T m l₂ d) : Sets T c (l₁ ++ l₂) d := by
  induction h1 with
  | nil c => exact h2
  | cons ws _ ih => exact .cons ws (ih h2)

theorem SameBytes.sets (hs : SameBytes T T' c d) (h : Sets T c l d) : Sets T' c l d := by
  induction h with
  | nil c => exact .nil c
  | cons ws rest ih =>
    have hlt := ws.lt
    have hle := rest.length_le
    exact .cons ((hs.mono (le_refl _) (by omega)).isWs ws) (ih (hs.mono hlt.le (le_refl _)))

/-- A write set and its entries lie between the two ends. -/
theorem Sets.mem (h : Sets T c l d) {p : ℕ × List (ℕ × ObjHdr)} (hp : p ∈ l) :
    (c ≤ p.1 ∧ p.1 < d) ∧ ∀ q ∈ p.2, c ≤ q.1 ∧ q.1 < d := by
  induction h with
  | nil c => simp at hp
  | cons ws rest ih =>
    have hlt := ws.lt
    have hle := rest.length_le
    rcases List.mem_cons.mp hp with rfl | hp
    · refine ⟨⟨le_refl _, by simp only; omega⟩, fun q hq => ?_⟩
      have hq' := ws.walk.mem (List.mem_cons_of_mem _ hq)
      omega
    · obtain ⟨h1, h2⟩ := ih hp
      exact ⟨⟨by omega, h1.2⟩, fun q hq => ⟨by have := h2 q hq; omega, (h2 q hq).2⟩⟩

/-- The first write set starts where the log does. -/
theorem Sets.start (h : Sets T c l d) : c = d ∨ c ∈ l.map Prod.fst := by
  rcases h with _ | ⟨ws, rest⟩
  · exact Or.inl rfl
  · exact Or.inr (by simp)

/-- A loop that stops behind whole write sets splits the list of write sets. -/
theorem Sets.split {es : List (ℕ × ObjHdr)} (h : CommittedSets T c es x)
    (hl : Sets T c l d) (hx : x ≤ d) :
    ∃ l₁ l₂, l = l₁ ++ l₂ ∧ Sets T c l₁ x ∧ Sets T x l₂ d := by
  induction h generalizing l with
  | nil c => exact ⟨[], l, rfl, .nil c, hl⟩
  | cons ws _ rest ih =>
    have hlt := ws.lt
    have hle := rest.le
    rcases hl with _ | ⟨ws', rest'⟩
    · omega
    · -- the header at one counter determines the entries behind it
      have hat := ws.at.symm.trans ws'.at
      rw [Option.some_inj, Prod.mk.injEq] at hat
      obtain ⟨rfl, -⟩ := hat
      have hent := ws.entries.symm.trans ws'.entries
      rw [Option.some_inj, Prod.mk.injEq] at hent
      obtain ⟨rfl, rfl⟩ := hent
      obtain ⟨l₁, l₂, rfl, h1, h2⟩ := ih rest' hx
      exact ⟨_, l₂, rfl, .cons ws h1, h2⟩

/-- Parsing finds the write sets. -/
theorem Sets.parse (h : Sets T c l d) (hd : d = T.tailCnt) {fuel : ℕ} (hf : l.length < fuel) :
    tvlogSets T fuel c = some l := by
  induction h generalizing fuel with
  | nil c =>
    obtain ⟨n, rfl⟩ := Nat.exists_eq_succ_of_ne_zero (Nat.ne_zero_of_lt hf)
    rw [tvlogSets, if_pos hd]
  | cons ws rest ih =>
    have hlt := ws.lt
    have hle := rest.length_le
    obtain ⟨n, rfl⟩ := Nat.exists_eq_succ_of_ne_zero (Nat.ne_zero_of_lt hf)
    rw [List.length_cons] at hf
    have hrest : tvlogSets T n _ = some _ := ih hd (by omega)
    rw [tvlogSets, if_neg (by omega), if_neg (by omega), ws.at]
    simp [ws.entries, hrest]

theorem copies_congr {es : List (ℕ × ObjHdr)}
    (h : ∀ p ∈ es, (T'.types (tvlogIndex p.1) = .bogus ↔ T.types (tvlogIndex p.1) = .bogus)) :
    copies T' es = copies T es := by
  rw [copies, copies]
  congr 1
  refine List.filter_congr fun p hp => ?_
  simp [h p hp]

theorem copies_append (T : Tvlog) (es fs : List (ℕ × ObjHdr)) :
    copies T (es ++ fs) = copies T es ++ copies T fs := by
  rw [copies, copies, copies, List.filter_append, List.map_append]

theorem copies_eq_nil {es : List (ℕ × ObjHdr)}
    (h : ∀ p ∈ es, T.types (tvlogIndex p.1) = .bogus) : copies T es = [] := by
  rw [copies, List.map_eq_nil_iff, List.filter_eq_nil_iff]
  intro p hp
  simp [h p hp]

theorem mem_of_mem_copies {es : List (ℕ × ObjHdr)} {k : ℕ} (h : k ∈ copies T es) :
    ∃ e, (k, e) ∈ es ∧ T.types (tvlogIndex k) ≠ .bogus := by
  rw [copies, List.mem_map] at h
  obtain ⟨⟨k', e⟩, hm, rfl⟩ := h
  rw [List.mem_filter] at hm
  exact ⟨e, hm.1, by simpa using hm.2⟩

end Sets

/-! ### The log and the locks of a thread -/

namespace TvlogParse

/-- A transient version log, with what a lock writes into the header of its copy
and into the object: `vhdr` and `wrtClk` are the `p_act_vhdr` and the `__wrt_clk`
of the copy at a ring index, `pLock` is the `p_lock` of an object that this thread
has locked, as the ring index of the copy.  Two fields are ghosts: the copies for
which `tvlog_append_end` was called, by the start of their write set, and the
objects that a commit has freed. -/
structure State (O : Type) where
  tvlog : Tvlog
  vhdr : ℕ → Option O
  wrtClk : ℕ → ℕ
  pLock : O → Option ℕ
  appended : ℕ → List (ℕ × O)
  freed : O → Bool

/-- The state after `tvlog_create`. -/
def initial (O : Type) : State O where
  tvlog := tvlogCreate
  vhdr := fun _ => none
  wrtClk := fun _ => 0
  pLock := fun _ => none
  appended := fun _ => []
  freed := fun _ => false

/-- The start of the open write set. -/
def openStart (T : Tvlog) : ℕ :=
  match T.curWrtSet with
  | none => T.tailCnt
  | some i => (T.wss i).startTailCnt

/-- What a thread, or the QP thread for it, does with the log. -/
inductive Op (O : Type)
  | lock (o : O) (size : ℕ) (locked : Bool)
  | commit (wrtClk : ℕ) (freed : O → Bool)
  | abort
  | reclaim (mode : TvlogMode) (env : Env) (ckptSClk : ℕ)

variable {O : Type} [DecidableEq O]

/-- The header of a copy of `o` at the tail of the log `T`, which has a new open
write set when there was none. -/
def initCopy (s : State O) (o : O) (T : Tvlog) : State O where
  __ := s
  tvlog := T
  vhdr := Function.update s.vhdr (tvlogIndex T.tailCnt) (some o)
  wrtClk := Function.update s.wrtClk (tvlogIndex T.tailCnt) maxVersion
  appended := if s.tvlog.curWrtSet = none
    then Function.update s.appended (openStart T) [] else s.appended

/-- `tvlog_append_begin` for the object `o`. -/
def appendBegin (s : State O) (o : O) (size : ℕ) : State O × ObjHdr × Bool :=
  let (T, h, bogus) := tvlogAppendBegin s.tvlog size
  (initCopy s o T, h, bogus)

/-- `try_lock_obj` succeeds, and `tvlog_append_end`. -/
def appendEnd (s : State O) (o : O) (h : ObjHdr) (bogus : Bool) : State O where
  __ := s
  tvlog := tvlogAppendEnd s.tvlog h bogus
  pLock := Function.update s.pLock o (some (tvlogIndex s.tvlog.tailCnt))
  appended := Function.update s.appended (openStart s.tvlog)
    (s.appended (openStart s.tvlog) ++ [(s.tvlog.tailCnt, o)])

/-- `_ts_try_lock` from `tvlog_append_begin` on; `tvlog_append_abort` does
nothing. -/
def tryLock (s : State O) (o : O) (size : ℕ) (locked : Bool) : State O :=
  let (s₁, h, bogus) := appendBegin s o size
  if locked then appendEnd s₁ o h bogus else s₁

/-- The compare-and-swap that releases the lock of the copy at index `i`. -/
def unlockCopy (s : State O) (i : ℕ) : State O where
  __ := s
  pLock := match s.vhdr i with
    | none => s.pLock
    | some o => if s.pLock o = some i then Function.update s.pLock o none else s.pLock

/-- Store the write clock into the copy at index `i`. -/
def stampCopy (s : State O) (wrtClk i : ℕ) : State O where
  __ := s
  wrtClk := Function.update s.wrtClk i wrtClk

/-- `ws_unlock_commit`; a freed object stays locked. -/
def wsUnlockCommit (wrtClk : ℕ) : State O → List (ℕ × ObjHdr) → State O :=
  List.foldl fun s p =>
    match s.tvlog.types (tvlogIndex p.1) with
    | .copy => unlockCopy (stampCopy s wrtClk (tvlogIndex p.1)) (tvlogIndex p.1)
    | .free => stampCopy s wrtClk (tvlogIndex p.1)
    | _ => s

/-- `ws_unlock_abort`. -/
def wsUnlockAbort : State O → List (ℕ × ObjHdr) → State O :=
  List.foldl fun s p =>
    match s.tvlog.types (tvlogIndex p.1) with
    | .copy => unlockCopy s (tvlogIndex p.1)
    | .free => unlockCopy s (tvlogIndex p.1)
    | _ => s

/-- The entries of the open write set, as `ws_for_each` visits them. -/
def openEntries (T : Tvlog) : Option (List (ℕ × ObjHdr)) := do
  let i ← T.curWrtSet
  let (h, ws) ← tvlogAtWss T (T.wss i).startTailCnt
  let (es, _) ← wsEntries T h ws
  some es

/-- Is the object of the copy at `cnt` in the free set? -/
def inFreeSet (s : State O) (freed : O → Bool) (cnt : ℕ) : Bool :=
  (s.vhdr (tvlogIndex cnt)).any freed

/-- `tvlog_commit`.  `ws_move_lock_to_copy` marks the freed copies before
`ws_unlock_commit` looks at their types. -/
def commit (s : State O) (wrtClk : ℕ) (freed : O → Bool) : Option (State O) := do
  let es ← openEntries s.tvlog
  let T ← tvlogCommit s.tvlog wrtClk (inFreeSet s freed)
  some (wsUnlockCommit wrtClk
    { s with tvlog := T, freed := fun o => s.freed o || freed o } es)

/-- `tvlog_abort`. -/
def abort (s : State O) : Option (State O) := do
  let es ← openEntries s.tvlog
  some { wsUnlockAbort s es with tvlog := tvlogAbort s.tvlog }

/-- One call on the log.  A lock succeeds only on an object that is not locked. -/
def step (B : ℕ) (s : State O) : Op O → Option (State O)
  | .lock o size locked =>
    if tvlogAccepts size ∧ (locked = true → s.pLock o = none)
    then some (tryLock s o size locked) else none
  | .commit wrtClk freed => if wrtClk < maxVersion then commit s wrtClk freed else none
  | .abort => abort s
  | .reclaim mode env ckptSClk => do
    let (T, _) ← tvlogReclaimX B s.tvlog mode env ckptSClk
    some { s with tvlog := T }

/-- The bytes that `add_extra_padding` keeps free behind an entry, for the next
write-set header. -/
def wsReserve : ℕ := alignUintToCacheline (uint (sizeofWrtSetStruct + sizeofCpyHdrStruct))

/-- The objects that the log is made for: the entry, with the filler and the
padding, fits the ring and leaves room for one more write-set header in it, and a
filler fits the 16 bits of `padding_size`. -/
def LocksInside (s : State O) : Op O → Prop
  | .lock _ size _ =>
    lockEnd s.tvlog size ≤ s.tvlog.headCnt + tvlogSize ∧
      tvlogEntrySize size + wsReserve < tvlogSize ∧
      (tvlogWraps (lockStart s.tvlog) (tvlogEntrySize size) →
        tvlogBogusSize (lockStart s.tvlog) < 2 ^ 16)
  | _ => True

/-- The condition on the locks of a run: moreover, a lock that inserts a filler
does not fail. -/
def LocksOk (s : State O) (i : Op O) : Prop :=
  LocksInside s i ∧ match i with
    | .lock _ size locked =>
      tvlogWraps (lockStart s.tvlog) (tvlogEntrySize size) → locked = true
    | _ => True

instance (s : State O) : ∀ i, Decidable (LocksInside s i)
  | .lock _ _ _ => inferInstanceAs (Decidable (_ ∧ _ ∧ _))
  | .commit _ _ | .abort | .reclaim _ _ _ => inferInstanceAs (Decidable True)

instance (s : State O) : ∀ i, Decidable (LocksOk s i)
  | .lock _ _ _ => inferInstanceAs (Decidable (LocksInside s _ ∧ (_ → _)))
  | .commit _ _ | .abort | .reclaim _ _ _ => inferInstanceAs (Decidable (True ∧ True))

/-- The log parses into write sets. -/
structure Parses (B : ℕ) (s : State O) : Prop where
  order : s.tvlog.headCnt ≤ s.tvlog.prevHeadCnt ∧ s.tvlog.prevHeadCnt ≤ s.tvlog.tailCnt
  sets : ∃ sets, tvlogSets s.tvlog (tvlogUsed s.tvlog + 1) s.tvlog.headCnt = some sets ∧
    (s.tvlog.prevHeadCnt = s.tvlog.tailCnt ∨ s.tvlog.prevHeadCnt ∈ sets.map Prod.fst) ∧
    ∀ p ∈ sets, copies s.tvlog p.2 = (s.appended p.1).map Prod.fst
  locked : ∀ o, s.pLock o ≠ none → s.freed o = true ∨
    s.tvlog.curWrtSet ≠ none ∧ ∃ cnt, (cnt, o) ∈ s.appended (openStart s.tvlog)
  commit : s.tvlog.curWrtSet ≠ none → ∀ wrtClk freed, wrtClk < maxVersion →
    ∃ s', step B s (.commit wrtClk freed) = some s' ∧
      ∀ p ∈ s.appended (openStart s.tvlog), s'.wrtClk (tvlogIndex p.1) = wrtClk ∧
        s'.pLock p.2 = if freed p.2 then some (tvlogIndex p.1) else none
  abort : s.tvlog.curWrtSet ≠ none → ∃ s', step B s .abort = some s' ∧
    ∀ p ∈ s.appended (openStart s.tvlog), s'.pLock p.2 = none

/-! ### Room for the next write-set header -/

theorem wsReserve_eq : wsReserve = 192 := by decide

/-- Behind an entry with its padding a write-set header does not cross the end of
the ring. -/
theorem not_wraps_behind {t n : ℕ} (ht : tvlogIndex t + n < tvlogSize)
    (hn : n + wsReserve < tvlogSize) :
    ¬ tvlogWraps (t + (n + addExtraPadding t n sizeofWrtSetStruct false)) wsEntrySize := by
  have hws : wsEntrySize = 128 := by decide
  rw [wsReserve_eq] at hn
  rw [addExtraPadding, ← wsReserve, wsReserve_eq]
  split
  · -- the padding reaches the end of the ring
    have hidx : tvlogIndex (t + (n + (tvlogSize - tvlogIndex (t + n)))) = 0 := by
      rw [← Nat.add_assoc]
      refine Ring.index_end ?_
      have : (t + n) % tvlogSize < tvlogSize := Nat.mod_lt _ (by decide)
      rw [tvlogIndex]
      omega
    rw [tvlogWraps, hidx]
    omega
  · rename_i hpad
    simp only [true_and, tvlogIndex] at hpad
    rw [Nat.add_assoc, Ring.index_lt_iff (by omega) hn] at hpad
    rw [tvlogWraps, hws, Nat.add_zero n, tvlogIndex, tvlogIndex,
      Ring.index_lt_iff (by omega) (by decide), Ring.index_add ht]
    omega

theorem lockStart_not_wraps {T : Tvlog} (h : ¬ tvlogWraps T.tailCnt wsEntrySize) :
    ¬ tvlogWraps (lockStart T) wsEntrySize := by
  rw [lockStart]
  split
  · exact h
  · exact not_wraps_behind (end_lt_of_not_wraps (by decide) (by decide) h) (by decide)

theorem lockEnd_not_wraps {T : Tvlog} {size : ℕ} (hacc : tvlogAccepts size)
    (hn : tvlogEntrySize size + wsReserve < tvlogSize) :
    ¬ tvlogWraps (lockEnd T size) wsEntrySize := by
  have hpos : 0 < tvlogEntrySize size := by
    rw [tvlogEntrySize_eq hacc.1]
    omega
  rw [lockEnd]
  split
  · -- the entry behind a filler starts at the beginning of the ring
    have hws : wsEntrySize = 128 := by decide
    have hidx : (lockStart T + tvlogBogusSize (lockStart T)) % tvlogSize = 0 := by
      refine Ring.index_end ?_
      have : lockStart T % tvlogSize < tvlogSize := Nat.mod_lt _ (by decide)
      rw [tvlogBogusSize, tvlogIndex]
      omega
    rw [wsReserve_eq] at hn
    rw [tvlogWraps, hws, tvlogIndex, tvlogIndex, Ring.index_lt_iff (by omega) (by decide),
      Ring.index_add (by omega)]
    omega
  · rename_i hw
    exact not_wraps_behind (end_lt_of_not_wraps hpos hacc.2 hw) hn

omit [DecidableEq O] in
/-- The condition on a lock, where the next write-set header needs no filler. -/
theorem LocksOk.fits {s : State O} {o : O} {size : ℕ} {locked : Bool}
    (h : LocksOk s (.lock o size locked)) (hroom : ¬ tvlogWraps s.tvlog.tailCnt wsEntrySize) :
    LockFits s.tvlog size locked :=
  ⟨h.1.1, fun _ => hroom, fun hw => ⟨h.2 hw, h.1.2.2 hw⟩⟩

theorem tvlogAppendBegin_prevHeadCnt (T : Tvlog) (size : ℕ) :
    (tvlogAppendBegin T size).1.prevHeadCnt = T.prevHeadCnt := by
  have halloc : ∀ (T : Tvlog) (n : ℕ) (b : Bool) (ty : ObjType),
      (tvlogAlloc T n b ty).1.prevHeadCnt = T.prevHeadCnt := by
    intro T n b ty
    simp only [tvlogAlloc, tvlogMakeRoom]
    split <;> rfl
  have hopen : (tvlogOpenWs T).1.prevHeadCnt = T.prevHeadCnt := by
    rw [tvlogOpenWs]
    split
    · rfl
    · exact halloc T sizeofWrtSet false .wrtSet
  rw [← hopen]
  exact halloc _ size _ .copy

/-! ### The invariant -/

/-- What the ghosts say about the log: the write sets `l` up to `st`, and the open
one, which starts at `st` and has the entries `os`. -/
structure Ghosts (s : State O) (st : ℕ) (os : List (ℕ × ObjHdr))
    (l : List (ℕ × List (ℕ × ObjHdr))) : Prop where
  sets : Sets s.tvlog s.tvlog.headCnt l st
  appended : ∀ p ∈ l, copies s.tvlog p.2 = (s.appended p.1).map Prod.fst
  prev : s.tvlog.prevHeadCnt = st ∨ s.tvlog.prevHeadCnt ∈ l.map Prod.fst
  startRoom : ¬ tvlogWraps st wsEntrySize
  openCopies : s.tvlog.curWrtSet ≠ none →
    copies s.tvlog os.tail = (s.appended st).map Prod.fst
  openTypes : ∀ p ∈ os.tail, s.tvlog.types (tvlogIndex p.1) = .copy ∨
    s.tvlog.types (tvlogIndex p.1) = .bogus
  openLocks : s.tvlog.curWrtSet ≠ none → ∀ p ∈ s.appended st,
    s.vhdr (tvlogIndex p.1) = some p.2 ∧ s.pLock p.2 = some (tvlogIndex p.1)
  locked : ∀ o, s.pLock o ≠ none → s.freed o = true ∨
    s.tvlog.curWrtSet ≠ none ∧ ∃ cnt, (cnt, o) ∈ s.appended st

/-- The invariant of a run whose locks are allowed. -/
def Inv (s : State O) : Prop :=
  ∃ st es os l, LogShape s.tvlog st es os ∧ Ghosts s st os l ∧
    ¬ tvlogWraps s.tvlog.tailCnt wsEntrySize

theorem openStart_eq {T : Tvlog} {st : ℕ} {es os : List (ℕ × ObjHdr)}
    (h : LogShape T st es os) : openStart T = st := by
  have ho := h.openSet
  rw [OpenSet] at ho
  rcases hc : T.curWrtSet with _ | i
  · rw [hc] at ho
    rw [openStart, hc]
    exact ho.1.symm
  · rw [hc] at ho
    obtain ⟨rfl, -, e, objs, -, hws⟩ := ho
    rw [openStart, hc]
    exact hws.start

theorem openStart_eq_of_open {T : Tvlog} {st k : ℕ} {es os : List (ℕ × ObjHdr)}
    (h : OpenShape T st es os k) : openStart T = st := by
  rw [openStart, h.cur]
  simp only [h.ws]

omit [DecidableEq O] in
/-- A copy appended to the open write set is one of its entries. -/
theorem Ghosts.entry {s : State O} {st : ℕ} {os : List (ℕ × ObjHdr)}
    {l : List (ℕ × List (ℕ × ObjHdr))} (g : Ghosts s st os l)
    (hcur : s.tvlog.curWrtSet ≠ none) {p : ℕ × O} (hp : p ∈ s.appended st) :
    ∃ e, (p.1, e) ∈ os.tail ∧ s.tvlog.types (tvlogIndex p.1) = .copy := by
  have hmem : p.1 ∈ copies s.tvlog os.tail := by
    rw [g.openCopies hcur]
    exact List.mem_map_of_mem hp
  obtain ⟨e, he, hty⟩ := mem_of_mem_copies hmem
  exact ⟨e, he, (g.openTypes _ he).resolve_right hty⟩

omit [DecidableEq O] in
/-- `tvlog_append_begin` leaves the write sets and the locks alone. -/
theorem Ghosts.appendBegin {s : State O} {st size : ℕ} {locked : Bool} {o : O}
    {es os : List (ℕ × ObjHdr)} {l : List (ℕ × List (ℕ × ObjHdr))}
    (hs : LogShape s.tvlog st es os) (g : Ghosts s st os l)
    (hroom : ¬ tvlogWraps s.tvlog.tailCnt wsEntrySize) (hacc : tvlogAccepts size)
    (hok : LocksOk s (.lock o size locked)) :
    ∃ s₁ hd b os' k, TvlogParse.appendBegin s o size = (s₁, hd, b) ∧
      (b = true → locked = true) ∧ (b = false → s₁.tvlog.tailCnt = lockStart s.tvlog) ∧
      Begun s.tvlog s₁.tvlog size hd ∧
      OpenShape s₁.tvlog st es os' k ∧ os'.length = (k + if b then 2 else 1) ∧
      Ghosts s₁ st os' l ∧ s₁.pLock = s.pLock ∧
      s₁.vhdr (tvlogIndex s₁.tvlog.tailCnt) = some o := by
  obtain ⟨T, hd, b, hT, hb, hstart, hbeg, os', fill, k, ho, hk, hos, hfill⟩ :=
    tvlogAppendBegin_spec hs hacc (hok.fits hroom)
  have hprev := tvlogAppendBegin_prevHeadCnt s.tvlog size
  rw [hT] at hprev
  simp only at hprev
  have hend := hok.1.1
  rw [← hbeg.lockEnd] at hend
  have hpos : 0 < getEntrySize hd := by
    have := hbeg.entry
    rw [tvlogEntrySize_eq hacc.1] at this
    omega
  have hhead := hs.committed.le
  have hst := hs.openSet.le
  have htail := hbeg.tail
  -- the ghost of the open write set, which starts empty
  have happ : ∀ c, (initCopy s o T).appended c =
      if s.tvlog.curWrtSet = none ∧ c = st then [] else s.appended c := by
    intro c
    simp only [initCopy, openStart_eq_of_open ho]
    by_cases hc : s.tvlog.curWrtSet = none
    · by_cases hcst : c = st
      · simp [hc, hcst]
      · simp [hc, hcst]
    · simp [hc]
  have hold : s.tvlog.curWrtSet = none → os = [] := by
    intro hc
    have := hs.openSet
    rw [OpenSet, hc] at this
    exact this.2
  have hty : ∀ k, s.tvlog.headCnt ≤ k → k < s.tvlog.tailCnt →
      T.types (tvlogIndex k) = s.tvlog.types (tvlogIndex k) :=
    fun k h1 h2 => (hbeg.same k h1 h2).2.1
  have hin : ∀ p ∈ os.tail, s.tvlog.headCnt ≤ p.1 ∧ p.1 < s.tvlog.tailCnt := by
    intro p hp
    obtain ⟨h1, h2, -, h4⟩ := hs.openSet.walk.mem (List.mem_of_mem_tail hp)
    omega
  refine ⟨initCopy s o T, hd, b, os', k, by simp only [TvlogParse.appendBegin, hT], hb,
    hstart, hbeg, ho, hk, ⟨?_, ?_, ?_, g.startRoom, ?_, ?_, ?_, ?_⟩, rfl,
    Function.update_self _ _ _⟩
  · show Sets T T.headCnt l st
    rw [hbeg.head]
    exact (hbeg.same.mono (le_refl _) hst).sets g.sets
  · intro p hp
    obtain ⟨⟨-, h1⟩, h2⟩ := g.sets.mem hp
    rw [happ, if_neg (by omega), ← g.appended p hp]
    refine copies_congr fun q hq => ?_
    show T.types _ = _ ↔ _
    rw [hty q.1 (h2 q hq).1 (by have := (h2 q hq).2; omega)]
  · show T.prevHeadCnt = st ∨ T.prevHeadCnt ∈ l.map Prod.fst
    rw [hprev]
    exact g.prev
  · intro _
    have hcop : copies T (os.tail ++ fill) = copies s.tvlog os.tail := by
      rw [copies_append, copies_eq_nil hfill, List.append_nil]
      refine copies_congr fun p hp => ?_
      rw [hty p.1 (hin p hp).1 (hin p hp).2]
    rw [happ, hos]
    show copies T (os.tail ++ fill) = _
    rw [hcop]
    by_cases hc : s.tvlog.curWrtSet = none
    · simp [hc, hold hc, copies]
    · rw [if_neg (by simp [hc])]
      exact g.openCopies hc
  · intro p hp
    rw [hos] at hp
    show T.types _ = _ ∨ T.types _ = _
    rcases List.mem_append.mp hp with hp | hp
    · rw [hty p.1 (hin p hp).1 (hin p hp).2]
      exact g.openTypes p hp
    · exact Or.inr (hfill p hp)
  · intro _ p hp
    rw [happ] at hp
    by_cases hc : s.tvlog.curWrtSet = none
    · simp [hc] at hp
    · rw [if_neg (by simp [hc])] at hp
      obtain ⟨e, he, -⟩ := g.entry hc hp
      obtain ⟨h1, h2⟩ := g.openLocks hc p hp
      refine ⟨?_, h2⟩
      -- the new header lies behind the entries of the write set
      rw [← h1]
      refine Function.update_of_ne (fun heq => ?_) _ _
      have hpin := hin _ he
      have := Ring.index_inj (n := tvlogSize) (h := s.tvlog.headCnt) hpin.1 (by omega)
        (by omega) (by omega) heq
      simp only at hpin
      omega
  · intro o' ho'
    rcases g.locked o' ho' with h | ⟨hc, c, hc'⟩
    · exact Or.inl h
    · have hcur : (initCopy s o T).tvlog.curWrtSet ≠ none := by
        show T.curWrtSet ≠ none
        simp [ho.cur]
      refine Or.inr ⟨hcur, c, ?_⟩
      rw [happ, if_neg (by simp [hc])]
      exact hc'

/-- `tvlog_append_end` leaves the bytes in front of the open write set alone, and
the types of its entries. -/
theorem sameBytes_appendEnd {T : Tvlog} {st k : ℕ} {es os : List (ℕ × ObjHdr)}
    (ho : OpenShape T st es os k) {hd : ObjHdr} (b : Bool) (hacc : tvlogAccepts hd.objSize)
    (hle : tvlogEntrySize hd.objSize ≤ getEntrySize hd)
    (hroom : T.tailCnt + getEntrySize hd ≤ T.headCnt + tvlogSize)
    (hend : tvlogIndex T.tailCnt + getEntrySize hd ≤ tvlogSize) :
    SameBytes T (tvlogAppendEnd T hd b) T.headCnt st ∧
      ∀ c, T.headCnt ≤ c → c < T.tailCnt →
        (tvlogAppendEnd T hd b).types (tvlogIndex c) = T.types (tvlogIndex c) := by
  have he := tvlogEntrySize_eq hacc.1
  have hsame := sameBytes_put (T := T) hd .copy (n := sizeofCpyHdrStruct + hd.objSize)
    (c := T.headCnt) (by rw [sizeofCpyHdrStruct]; omega) (by rw [sizeofCpyHdrStruct]; omega)
    (by rw [sizeofCpyHdrStruct]; omega)
  have hlt := ho.nonempty
  have hcap := ho.cap
  refine ⟨fun c h1 h2 => ?_, fun c h1 h2 => (hsame c h1 h2).2.1⟩
  obtain ⟨h3, h4, -⟩ := hsame c h1 (by omega)
  refine ⟨h3, h4, ?_⟩
  simp only [tvlogAppendEnd, ho.cur]
  refine Function.update_of_ne (fun heq => ?_) _ _
  have := Ring.index_inj (n := tvlogSize) (h := T.headCnt) h1 (by omega) ho.committed.le
    (by omega) heq
  omega

/-- `tvlog_append_end` adds the copy to the open write set. -/
theorem Ghosts.appendEnd {s : State O} {st k : ℕ} {o : O} {es os : List (ℕ × ObjHdr)}
    {l : List (ℕ × List (ℕ × ObjHdr))} {hd : ObjHdr} {b : Bool}
    (ho : OpenShape s.tvlog st es os k) (g : Ghosts s st os l)
    (hacc : tvlogAccepts hd.objSize) (hle : tvlogEntrySize hd.objSize ≤ getEntrySize hd)
    (hroom : s.tvlog.tailCnt + getEntrySize hd ≤ s.tvlog.headCnt + tvlogSize)
    (hend : tvlogIndex s.tvlog.tailCnt + getEntrySize hd ≤ tvlogSize)
    (hfree : s.pLock o = none) (hvhdr : s.vhdr (tvlogIndex s.tvlog.tailCnt) = some o) :
    Ghosts (TvlogParse.appendEnd s o hd b) st (os ++ [(s.tvlog.tailCnt, hd)]) l := by
  obtain ⟨hsame, hty⟩ := sameBytes_appendEnd ho b hacc hle hroom hend
  have hcur : s.tvlog.curWrtSet ≠ none := by simp [ho.cur]
  have hhead := ho.committed.le
  have hlt := ho.nonempty
  have hnew : (TvlogParse.appendEnd s o hd b).tvlog.types (tvlogIndex s.tvlog.tailCnt) = .copy :=
    Function.update_self _ _ _
  have htail : (os ++ [(s.tvlog.tailCnt, hd)]).tail = os.tail ++ [(s.tvlog.tailCnt, hd)] := by
    refine List.tail_append_of_ne_nil ?_
    rintro rfl
    have : st = s.tvlog.tailCnt := ho.walk
    omega
  have hin : ∀ p ∈ os.tail, s.tvlog.headCnt ≤ p.1 ∧ p.1 < s.tvlog.tailCnt := by
    intro p hp
    obtain ⟨h1, h2, -, h4⟩ := ho.walk.mem (List.mem_of_mem_tail hp)
    omega
  have happ : ∀ c, (TvlogParse.appendEnd s o hd b).appended c =
      if c = st then s.appended st ++ [(s.tvlog.tailCnt, o)] else s.appended c := by
    intro c
    simp only [TvlogParse.appendEnd, openStart_eq_of_open ho, Function.update_apply]
  refine ⟨hsame.sets g.sets, ?_, g.prev, g.startRoom, ?_, ?_, ?_, ?_⟩
  · intro p hp
    obtain ⟨⟨-, h1⟩, h2⟩ := g.sets.mem hp
    rw [happ, if_neg (by omega), ← g.appended p hp]
    refine copies_congr fun q hq => ?_
    show (tvlogAppendEnd s.tvlog hd b).types _ = _ ↔ _
    rw [hty q.1 (h2 q hq).1 (by have := (h2 q hq).2; omega)]
  · intro _
    rw [happ, if_pos rfl, htail, copies_append, List.map_append, ← g.openCopies hcur]
    congr 1
    · refine copies_congr fun p hp => ?_
      show (tvlogAppendEnd s.tvlog hd b).types _ = _ ↔ _
      rw [hty p.1 (hin p hp).1 (hin p hp).2]
    · simp [copies, hnew]
  · intro p hp
    rw [htail] at hp
    rcases List.mem_append.mp hp with hp | hp
    · show (tvlogAppendEnd s.tvlog hd b).types _ = _ ∨ (tvlogAppendEnd s.tvlog hd b).types _ = _
      rw [hty p.1 (hin p hp).1 (hin p hp).2]
      exact g.openTypes p hp
    · rw [List.mem_singleton] at hp
      subst hp
      exact Or.inl hnew
  · intro _ p hp
    rw [happ, if_pos rfl] at hp
    rcases List.mem_append.mp hp with hp | hp
    · obtain ⟨h1, h2⟩ := g.openLocks hcur p hp
      refine ⟨h1, ?_⟩
      -- another object, because `o` was not locked
      have hne : p.2 ≠ o := by
        rintro rfl
        rw [hfree] at h2
        contradiction
      rw [← h2]
      exact Function.update_of_ne hne _ _
    · rw [List.mem_singleton] at hp
      subst hp
      exact ⟨hvhdr, Function.update_self _ _ _⟩
  · intro o' ho'
    by_cases hoo : o' = o
    · subst hoo
      refine Or.inr ⟨hcur, s.tvlog.tailCnt, ?_⟩
      rw [happ, if_pos rfl]
      simp
    · have hpl : (TvlogParse.appendEnd s o hd b).pLock o' = s.pLock o' :=
        Function.update_of_ne hoo _ _
      rw [hpl] at ho'
      rcases g.locked o' ho' with h | ⟨-, c, hc⟩
      · exact Or.inl h
      · refine Or.inr ⟨hcur, c, ?_⟩
        rw [happ, if_pos rfl]
        exact List.mem_append_left _ hc

/-- A lock keeps the invariant. -/
theorem inv_tryLock {s : State O} {o : O} {size : ℕ} {locked : Bool} (h : Inv s)
    (hacc : tvlogAccepts size) (hfree : locked = true → s.pLock o = none)
    (hok : LocksOk s (.lock o size locked)) : Inv (tryLock s o size locked) := by
  obtain ⟨st, es, os, l, hs, g, hroom⟩ := h
  obtain ⟨s₁, hd, b, os', k, hT, hb, hstart, hbeg, ho, hk, g₁, hpl, hvh⟩ :=
    g.appendBegin hs hroom hacc hok
  rw [tryLock, hT]
  cases locked with
  | false =>
    have hbf : b = false := by
      cases b with
      | false => rfl
      | true => exact absurd (hb rfl) (by simp)
    rw [hbf] at hk
    refine ⟨st, es, os', l, ho.logShape hk, g₁, ?_⟩
    show ¬ tvlogWraps s₁.tvlog.tailCnt wsEntrySize
    rw [hstart hbf]
    exact lockStart_not_wraps hroom
  | true =>
    have hend := hok.1.1
    rw [← hbeg.lockEnd, ← hbeg.head] at hend
    have hacc' : tvlogAccepts hd.objSize := hbeg.objSize ▸ hacc
    have hle : tvlogEntrySize hd.objSize ≤ getEntrySize hd := hbeg.objSize ▸ hbeg.entry
    refine ⟨st, es, _, l, (ho.appendEnd hd b hacc' hle hbeg.aligned hend hbeg.inside).logShape ?_,
      g₁.appendEnd ho hacc' hle hend hbeg.inside (hpl ▸ hfree rfl) hvh, ?_⟩
    · rw [List.length_append, hk]
      rfl
    · show ¬ tvlogWraps (s₁.tvlog.tailCnt + getEntrySize hd) wsEntrySize
      rw [hbeg.lockEnd]
      exact lockEnd_not_wraps hacc hok.1.2.1

/-! ### Releasing the locks of a write set -/

/-- A loop body that releases the locks of the entries of some types, and changes
nothing else that the invariant is about. -/
structure Releases (rel : ObjType → Prop) (f : State O → ℕ × ObjHdr → State O) : Prop where
  same : ∀ s p, (f s p).tvlog = s.tvlog ∧ (f s p).vhdr = s.vhdr ∧
    (f s p).appended = s.appended ∧ (f s p).freed = s.freed
  unlock : ∀ s p, rel (s.tvlog.types (tvlogIndex p.1)) →
    (f s p).pLock = (unlockCopy s (tvlogIndex p.1)).pLock
  keep : ∀ s p, ¬ rel (s.tvlog.types (tvlogIndex p.1)) → (f s p).pLock = s.pLock

/-- The lock of `o` is that of the entry `p`, whose type is released. -/
def LockedBy (rel : ObjType → Prop) (s : State O) (p : ℕ × ObjHdr) (o : O) : Prop :=
  rel (s.tvlog.types (tvlogIndex p.1)) ∧ s.vhdr (tvlogIndex p.1) = some o ∧
    s.pLock o = some (tvlogIndex p.1)

theorem unlockCopy_pLock (s : State O) (i : ℕ) (o : O) :
    (unlockCopy s i).pLock o =
      if s.vhdr i = some o ∧ s.pLock o = some i then none else s.pLock o := by
  rw [unlockCopy]
  cases hv : s.vhdr i with
  | none => simp
  | some o' =>
    by_cases ho : o = o'
    · subst ho
      by_cases hp : s.pLock o = some i
      · simp [hp]
      · simp [hp]
    · have hne : o' ≠ o := Ne.symm ho
      simp only [Option.some_inj, hne, false_and, if_false]
      split
      · exact Function.update_of_ne ho _ _
      · rfl

theorem Releases.step {rel : ObjType → Prop} {f : State O → ℕ × ObjHdr → State O}
    (hf : Releases rel f) (s : State O) (p : ℕ × ObjHdr) (o : O) :
    (LockedBy rel s p o → (f s p).pLock o = none) ∧
      (¬ LockedBy rel s p o → (f s p).pLock o = s.pLock o) := by
  by_cases hrel : rel (s.tvlog.types (tvlogIndex p.1))
  · rw [hf.unlock s p hrel, unlockCopy_pLock]
    exact ⟨fun h => if_pos h.2, fun h => if_neg fun h' => h ⟨hrel, h'⟩⟩
  · rw [hf.keep s p hrel]
    exact ⟨fun h => absurd h.1 hrel, fun _ => rfl⟩

theorem Releases.foldl {rel : ObjType → Prop} {f : State O → ℕ × ObjHdr → State O}
    (hf : Releases rel f) (es : List (ℕ × ObjHdr)) (s : State O) :
    ((es.foldl f s).tvlog = s.tvlog ∧ (es.foldl f s).vhdr = s.vhdr ∧
      (es.foldl f s).appended = s.appended ∧ (es.foldl f s).freed = s.freed) ∧
    ∀ o, ((∃ p ∈ es, LockedBy rel s p o) → (es.foldl f s).pLock o = none) ∧
      ((∀ p ∈ es, ¬ LockedBy rel s p o) → (es.foldl f s).pLock o = s.pLock o) := by
  induction es generalizing s with
  | nil => exact ⟨⟨rfl, rfl, rfl, rfl⟩, fun o => ⟨by simp, fun _ => rfl⟩⟩
  | cons p es ih =>
    obtain ⟨e1, e2, e3, e4⟩ := hf.same s p
    obtain ⟨⟨h1, h2, h3, h4⟩, hlock⟩ := ih (f s p)
    rw [List.foldl_cons]
    refine ⟨⟨h1.trans e1, h2.trans e2, h3.trans e3, h4.trans e4⟩, fun o => ?_⟩
    obtain ⟨hin, hout⟩ := hlock o
    obtain ⟨hfirst, hkeep⟩ := hf.step s p o
    by_cases hp : LockedBy rel s p o
    · -- released by the first entry, and then no other entry holds the lock
      have hnone := hfirst hp
      refine ⟨fun _ => ?_, fun h => absurd hp (h p List.mem_cons_self)⟩
      rw [hout, hnone]
      rintro q - ⟨-, -, hq⟩
      rw [hnone] at hq
      contradiction
    · have hsame := hkeep hp
      have hiff : ∀ q, LockedBy rel (f s p) q o ↔ LockedBy rel s q o := by
        intro q
        rw [LockedBy, LockedBy, e1, e2, hsame]
      constructor
      · rintro ⟨q, hq, hl⟩
        rcases List.mem_cons.mp hq with rfl | hq
        · exact absurd hl hp
        · exact hin ⟨q, hq, (hiff q).mpr hl⟩
      · intro h
        rw [← hsame]
        exact hout fun q hq hl => h q (List.mem_cons_of_mem _ hq) ((hiff q).mp hl)

theorem releases_commit (wrtClk : ℕ) :
    Releases (O := O) (· = .copy) fun s p =>
      match s.tvlog.types (tvlogIndex p.1) with
      | .copy => unlockCopy (stampCopy s wrtClk (tvlogIndex p.1)) (tvlogIndex p.1)
      | .free => stampCopy s wrtClk (tvlogIndex p.1)
      | _ => s := by
  refine ⟨fun s p => ?_, fun s p h => ?_, fun s p h => ?_⟩
  · split <;> exact ⟨rfl, rfl, rfl, rfl⟩
  · simp only [h]
    rfl
  · split
    · contradiction
    · rfl
    · rfl

theorem releases_abort :
    Releases (O := O) (fun ty => ty = .copy ∨ ty = .free) fun s p =>
      match s.tvlog.types (tvlogIndex p.1) with
      | .copy => unlockCopy s (tvlogIndex p.1)
      | .free => unlockCopy s (tvlogIndex p.1)
      | _ => s := by
  refine ⟨fun s p => ?_, fun s p h => ?_, fun s p h => ?_⟩
  · split <;> exact ⟨rfl, rfl, rfl, rfl⟩
  · rcases h with h | h <;> simp only [h]
  · split
    · exact absurd (Or.inl ‹_›) h
    · exact absurd (Or.inr ‹_›) h
    · rfl

/-- `ws_unlock_commit` stamps every copy and freed copy it visits. -/
theorem wsUnlockCommit_wrtClk (wrtClk : ℕ) {es : List (ℕ × ObjHdr)} {s : State O} {i : ℕ}
    (hty : s.tvlog.types i = .copy ∨ s.tvlog.types i = .free)
    (h : s.wrtClk i = wrtClk ∨ ∃ p ∈ es, tvlogIndex p.1 = i) :
    (wsUnlockCommit wrtClk s es).wrtClk i = wrtClk := by
  induction es generalizing s with
  | nil => simpa [wsUnlockCommit] using h
  | cons p es ih =>
    rw [wsUnlockCommit, List.foldl_cons, ← wsUnlockCommit]
    have hsame := (releases_commit (O := O) wrtClk).same s p
    refine ih (by rw [hsame.1]; exact hty) ?_
    by_cases hi : tvlogIndex p.1 = i
    · -- this entry is stamped now
      subst hi
      left
      rcases hty with hty | hty
      · simp only [hty]
        exact Function.update_self _ _ _
      · simp only [hty]
        exact Function.update_self _ _ _
    · rcases h with h | ⟨q, hq, hqi⟩
      · left
        rw [← h]
        split
        · exact Function.update_of_ne (Ne.symm hi) _ _
        · exact Function.update_of_ne (Ne.symm hi) _ _
        · rfl
      · rcases List.mem_cons.mp hq with rfl | hq
        · exact absurd hqi hi
        · exact Or.inr ⟨q, hq, hqi⟩

/-! ### Commit, abort and reclamation -/

/-- Which of the copies `ws_move_lock_to_copy` marks, when the free set decides by
the ring index. -/
theorem markFree_of_mem {freed f : ℕ → Bool} (hf : ∀ c, freed c = f (tvlogIndex c))
    {es : List (ℕ × ObjHdr)} {types : ℕ → ObjType} {i : ℕ} (hty : types i = .copy)
    (hmem : ∃ p ∈ es, tvlogIndex p.1 = i) :
    markFree freed types es i = if f i then .free else .copy := by
  induction es generalizing types with
  | nil => simp at hmem
  | cons q es ih =>
    rw [markFree, List.foldl_cons, ← markFree]
    by_cases hq : tvlogIndex q.1 = i
    · by_cases hfi : f i = true
      · -- marked by this entry, and a freed copy is not marked again
        rw [if_pos ⟨hq ▸ hty, by rw [hf, hq, hfi]⟩, hq, if_pos hfi]
        rcases markFree_types freed es (Function.update types i .free) i with h | ⟨h, -⟩
        · rw [h, Function.update_self]
        · rw [Function.update_self] at h
          contradiction
      · rw [if_neg fun h => hfi (by rw [← hq, ← hf]; exact h.2)]
        by_cases hrest : ∃ p ∈ es, tvlogIndex p.1 = i
        · exact ih hty hrest
        · rcases markFree_types freed es types i with h | ⟨-, -, hr⟩
          · rw [h, hty, if_neg hfi]
          · exact absurd hr hrest
    · obtain ⟨p, hp, hpi⟩ := hmem
      have hrest : ∃ p ∈ es, tvlogIndex p.1 = i := by
        rcases List.mem_cons.mp hp with rfl | hp
        · exact absurd hpi hq
        · exact ⟨p, hp, hpi⟩
      refine ih ?_ hrest
      split
      · rw [Function.update_of_ne (Ne.symm hq)]
        exact hty
      · exact hty

/-- The open write set as the loops of commit and abort visit it. -/
theorem openEntries_eq {T : Tvlog} {st : ℕ} {es os : List (ℕ × ObjHdr)}
    (hs : LogShape T st es os) (hcur : T.curWrtSet ≠ none) :
    ∃ e objs, os = (st, e) :: objs ∧ IsWs T st e objs T.tailCnt ∧ openEntries T = some objs := by
  have ho := hs.openSet
  rw [OpenSet] at ho
  split at ho
  · contradiction
  · rename_i i hi
    obtain ⟨rfl, -, e, objs, rfl, hws⟩ := ho
    refine ⟨e, objs, rfl, hws, ?_⟩
    simp [openEntries, hi, hws.start, hws.at, hws.entries]

/-- The state in which `ws_unlock_commit` runs: the freed copies are marked, and the
write set is committed. -/
def marked (s : State O) (st wrtClk : ℕ) (freed : O → Bool) (objs : List (ℕ × ObjHdr)) :
    State O where
  __ := s
  tvlog := committedLog s.tvlog st wrtClk (inFreeSet s freed) objs
  freed := fun o => s.freed o || freed o

section Commit

variable {s : State O} {st : ℕ} {e : ObjHdr} {es objs : List (ℕ × ObjHdr)}
  {l : List (ℕ × List (ℕ × ObjHdr))}

/-- `ws_unlock_commit` stamps every copy of the write set, and releases the locks
of those that are not freed. -/
theorem Ghosts.unlockCommit (g : Ghosts s st ((st, e) :: objs) l) (wrtClk : ℕ)
    (freed : O → Bool) (hcur : s.tvlog.curWrtSet ≠ none) :
    ∀ p ∈ s.appended st,
      (wsUnlockCommit wrtClk (marked s st wrtClk freed objs) objs).wrtClk (tvlogIndex p.1) =
        wrtClk ∧
      (wsUnlockCommit wrtClk (marked s st wrtClk freed objs) objs).pLock p.2 =
        if freed p.2 then some (tvlogIndex p.1) else none := by
  intro p hp
  obtain ⟨e', he, hcopy⟩ := g.entry hcur hp
  obtain ⟨hv, hl⟩ := g.openLocks hcur p hp
  have hlock := ((releases_commit wrtClk).foldl objs (marked s st wrtClk freed objs)).2 p.2
  have hty : (marked s st wrtClk freed objs).tvlog.types (tvlogIndex p.1) =
      if freed p.2 then .free else .copy := by
    have hmark := markFree_of_mem (f := fun i => (s.vhdr i).any freed)
      (fun c => (rfl : inFreeSet s freed c = _)) hcopy ⟨_, he, rfl⟩
    rw [hv] at hmark
    exact hmark
  cases hfr : freed p.2 with
  | false =>
    rw [hfr] at hty
    exact ⟨wsUnlockCommit_wrtClk wrtClk (Or.inl hty) (Or.inr ⟨_, he, rfl⟩),
      hlock.1 ⟨_, he, hty, hv, hl⟩⟩
  | true =>
    rw [hfr] at hty
    refine ⟨wsUnlockCommit_wrtClk wrtClk (Or.inr hty) (Or.inr ⟨_, he, rfl⟩), ?_⟩
    rw [wsUnlockCommit, hlock.2]
    · exact hl
    · -- the copy that holds the lock is not of a type that is released
      rintro q - ⟨hq1, -, hq3⟩
      have hqi := hl.symm.trans hq3
      rw [Option.some_inj] at hqi
      rw [← hqi, hty] at hq1
      simp at hq1

omit [DecidableEq O] in
/-- The write sets after a commit: the open one is the last of them. -/
theorem Ghosts.marked {wrtClk : ℕ} (g : Ghosts s st ((st, e) :: objs) l) (freed : O → Bool)
    (hs : LogShape s.tvlog st es ((st, e) :: objs)) (hcur : s.tvlog.curWrtSet ≠ none)
    (hws : IsWs s.tvlog st e objs s.tvlog.tailCnt)
    (hws' : IsWs (marked s st wrtClk freed objs).tvlog st e objs s.tvlog.tailCnt) :
    Sets (marked s st wrtClk freed objs).tvlog s.tvlog.headCnt (l ++ [(st, objs)])
      s.tvlog.tailCnt ∧
    ∀ p ∈ l ++ [(st, objs)],
      copies (marked s st wrtClk freed objs).tvlog p.2 = (s.appended p.1).map Prod.fst := by
  obtain ⟨hsame, -⟩ := hs.sameBytes_commit hws wrtClk (inFreeSet s freed)
  refine ⟨(hsame.sets g.sets).append (.cons hws' (.nil _)), fun p hp => ?_⟩
  rcases List.mem_append.mp hp with hp | hp
  · refine Eq.trans (copies_congr fun q hq => ?_) (g.appended p hp)
    obtain ⟨-, hin⟩ := g.sets.mem hp
    rw [← (hsame q.1 (hin q hq).1 (hin q hq).2).2.1]
    rfl
  · rw [List.mem_singleton] at hp
    subst hp
    refine Eq.trans (copies_congr fun q hq => ?_) (g.openCopies hcur)
    -- marking turns copies into freed copies only
    show markFree (inFreeSet s freed) s.tvlog.types objs _ = _ ↔ _
    rcases markFree_types (inFreeSet s freed) objs s.tvlog.types (tvlogIndex q.1)
      with h | ⟨ha, hb, -⟩
    · rw [h]
    · rw [ha, hb]
      simp

end Commit

/-- What `tvlog_commit` does, and that it keeps the invariant. -/
theorem commit_spec {s : State O} {wrtClk st : ℕ} {es os : List (ℕ × ObjHdr)}
    {l : List (ℕ × List (ℕ × ObjHdr))} (hs : LogShape s.tvlog st es os) (g : Ghosts s st os l)
    (hroom : ¬ tvlogWraps s.tvlog.tailCnt wsEntrySize) (freed : O → Bool)
    (hcur : s.tvlog.curWrtSet ≠ none) (hclk : wrtClk < maxVersion) :
    ∃ s', commit s wrtClk freed = some s' ∧ Inv s' ∧
      ∀ p ∈ s.appended st, s'.wrtClk (tvlogIndex p.1) = wrtClk ∧
        s'.pLock p.2 = if freed p.2 then some (tvlogIndex p.1) else none := by
  obtain ⟨e, objs, rfl, hws, hopen⟩ := openEntries_eq hs hcur
  obtain ⟨e', objs', heq, -, -, hT, hws', hs'⟩ :=
    hs.commit (inFreeSet s freed) hcur hclk.ne
  rw [List.cons.injEq, Prod.mk.injEq] at heq
  obtain ⟨⟨-, rfl⟩, rfl⟩ := heq
  have heff := g.unlockCommit wrtClk freed hcur
  obtain ⟨hsets, hcopies⟩ := g.marked freed hs hcur hws hws'
  obtain ⟨⟨h1, -, h3, h4⟩, hlock⟩ :=
    (releases_commit wrtClk).foldl objs (TvlogParse.marked s st wrtClk freed objs)
  rw [← wsUnlockCommit] at h1 h3 h4 hlock
  have hnone : (wsUnlockCommit wrtClk (TvlogParse.marked s st wrtClk freed objs)
      objs).tvlog.curWrtSet = none := by
    rw [h1]
    rfl
  refine ⟨wsUnlockCommit wrtClk (TvlogParse.marked s st wrtClk freed objs) objs, ?_,
    ⟨s.tvlog.tailCnt, es ++ ((st, e) :: objs), [], l ++ [(st, objs)], ?_,
      ⟨?_, ?_, ?_, hroom, fun hc => absurd hnone hc, by simp, fun hc => absurd hnone hc, ?_⟩,
      ?_⟩, heff⟩
  · simp [commit, hopen, hT, TvlogParse.marked]
  · rw [h1]
    exact hs'
  · rw [h1]
    exact hsets
  · rw [h1, h3]
    exact hcopies
  · rw [h1, List.map_append]
    rcases g.prev with h | h
    · right
      exact List.mem_append_right _ (by simpa [TvlogParse.marked, committedLog] using h)
    · exact Or.inr (List.mem_append_left _ h)
  · intro o ho
    left
    rw [h4]
    show (s.freed o || freed o) = true
    -- a lock that is still held belongs to an object freed now or before
    by_cases hl : ∃ p ∈ objs, LockedBy (· = .copy) (TvlogParse.marked s st wrtClk freed objs) p o
    · exact absurd ((hlock o).1 hl) ho
    · have hkeep := (hlock o).2 fun p hp hlp => hl ⟨p, hp, hlp⟩
      have ho' : s.pLock o ≠ none := hkeep ▸ ho
      rcases g.locked o ho' with hfr | ⟨-, c, hc⟩
      · simp [hfr]
      · by_contra hfr
        rw [Bool.or_eq_true, not_or] at hfr
        exact ho ((heff _ hc).2.trans (if_neg hfr.2))
  · rw [h1]
    exact hroom

/-- What `tvlog_abort` does, and that it keeps the invariant. -/
theorem abort_spec {s : State O} {st : ℕ} {es os : List (ℕ × ObjHdr)}
    {l : List (ℕ × List (ℕ × ObjHdr))} (hs : LogShape s.tvlog st es os) (g : Ghosts s st os l)
    (hcur : s.tvlog.curWrtSet ≠ none) :
    ∃ s', abort s = some s' ∧ Inv s' ∧ ∀ p ∈ s.appended st, s'.pLock p.2 = none := by
  obtain ⟨e, objs, rfl, hws, hopen⟩ := openEntries_eq hs hcur
  obtain ⟨hshape, hhead, htail⟩ := hs.abort
  obtain ⟨⟨h1, h2, h3, h4⟩, hlock⟩ := releases_abort.foldl objs s
  rw [← wsUnlockAbort] at h1 h2 h3 h4 hlock
  have hrel : ∀ p ∈ s.appended st, (wsUnlockAbort s objs).pLock p.2 = none := by
    intro p hp
    obtain ⟨e', he, hty⟩ := g.entry hcur hp
    obtain ⟨hv, hl⟩ := g.openLocks hcur p hp
    exact (hlock p.2).1 ⟨_, he, Or.inl hty, hv, hl⟩
  have hnone : (tvlogAbort s.tvlog).curWrtSet = none := by
    rw [tvlogAbort]
    split <;> trivial
  have hbytes : ∀ b, SameBytes s.tvlog (tvlogAbort s.tvlog) s.tvlog.headCnt b := by
    intro b k _ _
    rw [tvlogAbort]
    split <;> exact ⟨rfl, rfl, rfl⟩
  have hprev : (tvlogAbort s.tvlog).prevHeadCnt = s.tvlog.prevHeadCnt := by
    rw [tvlogAbort]
    split <;> rfl
  refine ⟨{ wsUnlockAbort s objs with tvlog := tvlogAbort s.tvlog }, by simp [abort, hopen],
    ⟨st, es, [], l, hshape, ⟨?_, ?_, ?_, g.startRoom, ?_, by simp, ?_, ?_⟩, ?_⟩, hrel⟩
  · simp only [hhead]
    exact (hbytes st).sets g.sets
  · intro p hp
    simp only [h3]
    rw [← g.appended p hp]
    refine copies_congr fun q hq => ?_
    rw [(hbytes st q.1 ((g.sets.mem hp).2 q hq).1 ((g.sets.mem hp).2 q hq).2).2.1]
  · simp only [hprev]
    exact g.prev
  · exact fun h => absurd hnone h
  · exact fun h => absurd hnone h
  · intro o ho
    -- every lock that was not released belongs to a freed object
    by_cases hl : ∃ p ∈ objs, LockedBy (fun ty => ty = .copy ∨ ty = .free) s p o
    · exact absurd ((hlock o).1 hl) ho
    · have hkeep := (hlock o).2 fun p hp hlp => hl ⟨p, hp, hlp⟩
      have ho' : s.pLock o ≠ none := hkeep ▸ ho
      rcases g.locked o ho' with hfr | ⟨-, c, hc⟩
      · exact Or.inl (h4 ▸ hfr)
      · exact absurd (hrel _ hc) ho
  · simp only [htail]
    exact g.startRoom

omit [DecidableEq O] in
/-- `tvlog_reclaim_x` keeps the invariant. -/
theorem reclaim_spec (B : ℕ) {s : State O} (mode : TvlogMode) (env : Env) (ckptSClk : ℕ)
    (h : Inv s) :
    ∃ T sizes, tvlogReclaimX B s.tvlog mode env ckptSClk = some (T, sizes) ∧
      Inv { s with tvlog := T } := by
  obtain ⟨st, es, os, l, hs, g, hroom⟩ := h
  obtain ⟨x, y, sizes, pre, mid, post, -, hpre, hmid, hpost, hT, hs', -⟩ :=
    hs.reclaimX B mode env ckptSClk
  refine ⟨_, sizes, hT, st, mid ++ post, os, ?_⟩
  have hxy := hmid.le
  have hy := hpost.le
  obtain ⟨l₁, l₂, rfl, -, h2⟩ := Sets.split hpre g.sets (by omega)
  obtain ⟨m₁, m₂, rfl, -, h4⟩ := Sets.split hmid h2 hy
  have hbytes : SameBytes s.tvlog { s.tvlog with headCnt := x, prevHeadCnt := y } x st :=
    fun _ _ _ => ⟨rfl, rfl, rfl⟩
  refine ⟨m₁ ++ m₂, hs', ⟨hbytes.sets h2, ?_, ?_, g.startRoom, g.openCopies, g.openTypes,
    g.openLocks, g.locked⟩, hroom⟩
  · exact fun p hp => g.appended p (List.mem_append_right _ hp)
  · rcases h4.start with h | h
    · exact Or.inl h
    · refine Or.inr ?_
      rw [List.map_append]
      exact List.mem_append_right _ h

/-! ### Runs -/

omit [DecidableEq O] in
theorem inv_initial : Inv (initial O) := by
  refine ⟨0, [], [], [], ⟨.nil 0, ⟨rfl, rfl⟩, by simp, Nat.dvd_zero _, Nat.zero_le _⟩, ?_,
    (by decide : ¬ tvlogWraps 0 wsEntrySize)⟩
  exact ⟨.nil 0, by simp, Or.inl rfl, by decide, nofun, by simp, nofun,
    fun o ho => absurd rfl ho⟩

/-- An allowed call keeps the invariant. -/
theorem inv_step {B : ℕ} {s s' : State O} {i : Op O} (h : Inv s) (hok : LocksOk s i)
    (hs : step B s i = some s') : Inv s' := by
  match i with
  | .lock o size locked =>
    simp only [step, Option.ite_none_right_eq_some, Option.some_inj] at hs
    obtain ⟨⟨hacc, hfree⟩, rfl⟩ := hs
    exact inv_tryLock h hacc hfree hok
  | .commit wrtClk freed =>
    simp only [step, Option.ite_none_right_eq_some] at hs
    obtain ⟨hclk, hs⟩ := hs
    obtain ⟨st, es, os, l, hsh, g, hroom⟩ := h
    have hcur : s.tvlog.curWrtSet ≠ none := by
      intro hc
      simp [commit, openEntries, hc] at hs
    obtain ⟨s₁, hs₁, hinv, -⟩ := commit_spec hsh g hroom freed hcur hclk
    rw [hs, Option.some_inj] at hs₁
    exact hs₁ ▸ hinv
  | .abort =>
    rw [step] at hs
    obtain ⟨st, es, os, l, hsh, g, hroom⟩ := h
    have hcur : s.tvlog.curWrtSet ≠ none := by
      intro hc
      simp [abort, openEntries, hc] at hs
    obtain ⟨s₁, hs₁, hinv, -⟩ := abort_spec hsh g hcur
    rw [hs, Option.some_inj] at hs₁
    exact hs₁ ▸ hinv
  | .reclaim mode env ckptSClk =>
    obtain ⟨T, sizes, hT, hinv⟩ := reclaim_spec B mode env ckptSClk h
    simp only [step, hT, Option.bind_eq_bind, Option.bind_some, Option.some_inj] at hs
    exact hs ▸ hinv

/-- The invariant says that the log parses. -/
theorem Inv.parses {B : ℕ} {s : State O} (h : Inv s) : Parses B s := by
  obtain ⟨st, es, os, l, hs, g, hroom⟩ := h
  have hstart := openStart_eq hs
  have hlen := g.sets.length_le
  have hle := hs.openSet.le
  have hprev : s.tvlog.headCnt ≤ s.tvlog.prevHeadCnt ∧ s.tvlog.prevHeadCnt ≤ st := by
    rcases g.prev with hp | hp
    · omega
    · obtain ⟨p, hp, hpe⟩ := List.mem_map.mp hp
      have := (g.sets.mem hp).1
      omega
  refine ⟨⟨hprev.1, by omega⟩, ?_, ?_, ?_, ?_⟩
  · by_cases hcur : s.tvlog.curWrtSet = none
    · -- the committed write sets reach the tail
      have hend : st = s.tvlog.tailCnt := by rw [← hstart, openStart, hcur]
      refine ⟨l, g.sets.parse hend (by rw [tvlogUsed]; omega), ?_, g.appended⟩
      rw [← hend]
      exact g.prev
    · -- the open write set is the last one
      obtain ⟨e, objs, rfl, hws, -⟩ := openEntries_eq hs hcur
      have hall := g.sets.append (.cons hws (.nil _))
      have hlen' := hall.length_le
      refine ⟨_, hall.parse rfl (by rw [tvlogUsed]; omega), Or.inr ?_, fun p hp => ?_⟩
      · rw [List.map_append]
        rcases g.prev with hp | hp
        · exact List.mem_append_right _ (by simpa using hp)
        · exact List.mem_append_left _ hp
      · rcases List.mem_append.mp hp with hp | hp
        · exact g.appended p hp
        · rw [List.mem_singleton] at hp
          subst hp
          exact g.openCopies hcur
  · rw [hstart]
    exact g.locked
  · intro hcur wrtClk freed hclk
    obtain ⟨s', hs', -, heff⟩ := commit_spec hs g hroom freed hcur hclk
    rw [hstart]
    exact ⟨s', by rw [step, if_pos hclk, hs'], heff⟩
  · intro hcur
    obtain ⟨s', hs', -, heff⟩ := abort_spec hs g hcur
    rw [hstart]
    exact ⟨s', hs', heff⟩

/-- When no failed lock inserts a filler, every state of every run parses. -/
theorem parses_of_locksOk {B : ℕ} {s : State O}
    (h : Run.Reach (· = initial O) (step B) LocksOk s) : Parses B s := by
  refine Inv.parses (h.invariant ?_ fun s i s' => inv_step)
  rintro s rfl
  exact inv_initial

/-- A transaction that fills most of the ring and is reclaimed, and the first lock
of the next one. -/
def fillRun : List (Op ℕ) :=
  let env : Env := ⟨fun _ => false, fun _ => false, fun _ => false⟩
  (List.range 15).map (fun o => Op.lock o 65000 true) ++
    [.commit 100 fun _ => false, .reclaim .ckpt env 1000, .reclaim .ckpt env 1000,
      .lock 20 60000 true]

theorem parses_of_locksOk_wrap :
    ∃ s : State ℕ, Run.Reach (· = initial ℕ) (step 0) LocksOk s ∧
      s.tvlog.tailCnt = 1108672 ∧ Parses 0 s := by
  have h : (Run.exec (step 0) LocksOk (initial ℕ)
      (fillRun ++ [.lock 22 60000 true])).map
      (fun s => decide (s.tvlog.tailCnt = 1108672)) = some true := by
    decide +kernel
  obtain ⟨s, hr, htail⟩ : ∃ s, Run.Reach (· = initial ℕ) (step 0) LocksOk s ∧ _ :=
    Run.Reach.exists_of_exec (.init rfl) h
  exact ⟨s, hr, htail, parses_of_locksOk hr⟩

/-- A failed lock inserts a filler, and object 22 is locked behind it.  The walk of
the commit ends in front of its copy, and the object stays locked for ever. -/
theorem filler_of_failed_lock :
    ∃ s s' : State ℕ, Run.Reach (· = initial ℕ) (step 0) LocksInside s ∧
      (1048576, 22) ∈ s.appended (openStart s.tvlog) ∧
      step 0 s (.commit 2000 fun _ => false) = some s' ∧ s'.tvlog.curWrtSet = none ∧
      s'.wrtClk (tvlogIndex 1048576) = maxVersion ∧ s'.pLock 22 = some 0 ∧ ¬ Parses 0 s := by
  have h : ((Run.exec (step 0) LocksInside (initial ℕ)
      (fillRun ++ [.lock 21 60000 false, .lock 22 60000 true])).map fun s =>
      decide ((1048576, 22) ∈ s.appended (openStart s.tvlog) ∧ s.tvlog.curWrtSet ≠ none ∧
        (step 0 s (.commit 2000 fun _ => false)).map (fun s' => decide
          (s'.tvlog.curWrtSet = none ∧ s'.wrtClk (tvlogIndex 1048576) = maxVersion ∧
            s'.pLock 22 = some 0)) = some true)) = some true := by
    decide +kernel
  obtain ⟨s, hs, hdec⟩ := Option.map_eq_some_iff.mp h
  obtain ⟨happ, hcur, hcommit⟩ := of_decide_eq_true hdec
  obtain ⟨s', hs', hdec'⟩ := Option.map_eq_some_iff.mp hcommit
  obtain ⟨hnone, hclk, hlock⟩ := of_decide_eq_true hdec'
  have hr : Run.Reach (· = initial ℕ) (step 0) LocksInside s := .of_exec (.init rfl) hs
  refine ⟨s, s', hr, happ, hs', hnone, hclk, hlock, fun hp => ?_⟩
  obtain ⟨s₁, hs₁, heff⟩ := hp.commit hcur 2000 (fun _ => false) (by decide)
  rw [hs', Option.some_inj] at hs₁
  subst hs₁
  have := (heff _ happ).2
  simp [hlock] at this

end TvlogParse

end TimeStone
