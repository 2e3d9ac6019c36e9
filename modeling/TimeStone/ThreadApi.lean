/-
The calls that a thread makes (`timestone.c`) and the retry loop around them
(`timestone++.hpp`).

A transaction is a list of calls between `ts_begin` and `ts_end` or `ts_abort`.  Here only
what a thread keeps between the calls is looked at: `run_cnt`, `is_write_detected`, whether
there is a current write set, and the two pointer sets.  At which of its return points
`_ts_try_lock` leaves is given with the call.

The current write set is created before the lock is taken, while the commit is guarded by
`is_write_detected`, which is set after; and `tx_free_set` is only reset together with a
write set.  `ts_alloc` does not know its thread, so nothing ever enters `tx_alloc_set`.

* `clean_iff` — between transactions a thread is clean, as the assertions say, exactly when
  no transaction is of the kinds that leave something behind;
* `followsOutcome_iff` — the objects of a transaction follow its outcome exactly when there
  are none;
* `balanced_iff` — the retry loop balances `ts_begin` and `ts_end` exactly when no
  validation fails.
-/
import TimeStone.Config
import TimeStone.PtrSet
import TimeStone.Isolation
import Mathlib.Algebra.Ring.Parity

namespace TimeStone.ThreadApi

/-- `sizeof(ts_act_hdr_struct_t)`. -/
def sizeofActHdrStruct : ℕ := 40

/-- `ts_thread_struct_t`, and what the calls do to NVM: `objSize` is the field of the actual
object with this header, `clwbs` and `nvmFrees` record the addresses that `flush_new_act`
writes back and that `free_new_act` frees. -/
structure Thread where
  runCnt : ℕ
  isWriteDetected : Bool
  /-- `cur_wrt_set != NULL`. -/
  curWrtSet : Bool
  txFreeSet : PtrSet
  txAllocSet : PtrSet
  objSize : ℕ → ℕ
  clwbs : List ℕ
  nvmFrees : List ℕ

/-- The return points of `_ts_try_lock`, in the order of the source. -/
inductive LockReturn
  | staleRead
  | noVhdr
  | isLocked
  | tooNew
  | lostCas
  | locked
  deriving DecidableEq

/-- The calls of a transaction, and what they depend on outside the thread. -/
inductive Call
  /-- `ts_deref`. -/
  | deref
  /-- `_ts_try_lock`, `_ts_try_lock_const`. -/
  | tryLock (r : LockReturn)
  /-- `ts_free` of the object whose original is `pAct`. -/
  | free (pAct : ℕ)
  /-- `ts_alloc(size)`, where `nvm_aligned_alloc` returns `ahs`. -/
  | alloc (ahs size : ℕ)
  deriving DecidableEq

/-- `ts_begin`, after the reclamation of the logs. -/
def tsBegin (T : Thread) : Thread := { T with runCnt := T.runCnt + 1 }

/-- `_ts_try_lock`: `tvlog_append_begin` creates the write set before `try_lock_obj`. -/
def tsTryLock (T : Thread) : LockReturn → Thread
  | .staleRead | .noVhdr | .isLocked | .tooNew => T
  | .lostCas => { T with curWrtSet := true }
  | .locked => { T with curWrtSet := true, isWriteDetected := true }

/-- `ts_free` by a thread. -/
def tsFree (T : Thread) (pAct : ℕ) : Thread :=
  if pAct = 0 then T else { T with txFreeSet := ptrsetPush T.txFreeSet pAct }

/-- `ts_alloc`: only the header of the object is written. -/
def tsAlloc (T : Thread) (ahs size : ℕ) : Thread :=
  if ahs = 0 then T else { T with objSize := Function.update T.objSize ahs (uint size) }

def call (T : Thread) : Call → Thread
  | .deref => T
  | .tryLock r => tsTryLock T r
  | .free pAct => tsFree T pAct
  | .alloc ahs size => tsAlloc T ahs size

/-- `flush_to_nvm`: the addresses given to `clwb`. -/
def flushToNvm (dst size : ℕ) : List ℕ :=
  (List.range ((uint size + (cacheLineSize - 1)) / cacheLineSize)).map
    fun i => dst + i * cacheLineSize

/-- A loop that pops pointers from `tx_alloc_set` up to the first `NULL`. -/
def drainAllocSet (body : Thread → ℕ → Thread) : ℕ → Thread → Thread
  | 0, T => T
  | n + 1, T =>
    let (ahs, txAllocSet) := ptrsetPop T.txAllocSet
    let T := { T with txAllocSet := txAllocSet }
    if ahs = 0 then T else drainAllocSet body n (body T ahs)

/-- `flush_new_act`. -/
def flushNewAct (T : Thread) : Thread :=
  drainAllocSet (fun T ahs =>
    { T with clwbs := T.clwbs ++ flushToNvm ahs (sizeofActHdrStruct + T.objSize ahs) })
    (T.txAllocSet.numPtrs + 1) T

/-- `free_new_act`. -/
def freeNewAct (T : Thread) : Thread :=
  drainAllocSet (fun T ahs => { T with nvmFrees := T.nvmFrees ++ [ahs] })
    (T.txAllocSet.numPtrs + 1) T

/-- What `tvlog_commit` and `tvlog_abort` leave: no write set and an empty free set; their
callers then reset `is_write_detected`. -/
def closeWrtSet (T : Thread) : Thread where
  __ := T
  curWrtSet := false
  txFreeSet := ptrsetReset T.txFreeSet
  isWriteDetected := false

/-- `ts_abort`. -/
def tsAbort (T : Thread) : Thread :=
  let T := { T with runCnt := T.runCnt + 1 }
  freeNewAct (if T.curWrtSet then closeWrtSet T else T)

/-- `ts_end` outside recovery mode, where `validate_read_set` returns `valid`. -/
def tsEnd (T : Thread) (valid : Bool) : Thread × Bool :=
  if valid = false then (tsAbort T, false)
  else
    let T := if T.isWriteDetected then closeWrtSet T else T
    (flushNewAct { T with runCnt := T.runCnt + 1 }, true)

/-- How a transaction ends: with `ts_end`, which commits or fails its validation, or with
`ts_abort`. -/
inductive Ending
  | commit
  | invalid
  | abort
  deriving DecidableEq

structure Tx where
  body : List Call
  ending : Ending
  deriving DecidableEq

def finish (T : Thread) : Ending → Thread
  | .commit => (tsEnd T true).1
  | .invalid => (tsEnd T false).1
  | .abort => tsAbort T

/-- A whole transaction. -/
def runTx (T : Thread) (tx : Tx) : Thread := finish (tx.body.foldl call (tsBegin T)) tx.ending

/-- A thread after `ts_thread_init`; the arrays of its pointer sets are not initialised. -/
def IsInit (T : Thread) : Prop :=
  T.runCnt = 0 ∧ T.isWriteDetected = false ∧ T.curWrtSet = false ∧ T.txFreeSet.numPtrs = 0 ∧
    T.txAllocSet.numPtrs = 0

/-- What `ts_begin`, `ts_end` and `ts_abort` assert of a thread between transactions. -/
structure Clean (T : Thread) : Prop where
  curWrtSet : T.curWrtSet = false
  txFreeSet : T.txFreeSet.numPtrs = 0
  txAllocSet : T.txAllocSet.numPtrs = 0
  isWriteDetected : T.isWriteDetected = false
  runCnt : Even T.runCnt

/-! ### One call -/

/-- Does the call reach `tvlog_append_begin`? -/
def Call.appends : Call → Bool
  | .tryLock .lostCas | .tryLock .locked => true
  | _ => false

/-- Does the call take a lock? -/
def Call.locks : Call → Bool
  | .tryLock .locked => true
  | _ => false

/-- Does the call put an object into `tx_free_set`? -/
def Call.frees : Call → Bool
  | .free pAct => pAct ≠ 0
  | _ => false

/-- The objects that the calls have obtained from `ts_alloc`, with their sizes. -/
def allocated (body : List Call) : List (ℕ × ℕ) :=
  body.filterMap fun
    | .alloc ahs size => if ahs = 0 then none else some (ahs, size)
    | _ => none

variable {T : Thread}

/-- What the calls of a transaction can do to its thread. -/
structure After (T T' : Thread) (body : List Call) : Prop where
  runCnt : T'.runCnt = T.runCnt
  curWrtSet : T'.curWrtSet = (T.curWrtSet || body.any Call.appends)
  isWriteDetected : T'.isWriteDetected = (T.isWriteDetected || body.any Call.locks)
  txFreeSet : T'.txFreeSet.numPtrs = 0 ↔ T.txFreeSet.numPtrs = 0 ∧ body.any Call.frees = false
  txAllocSet : T'.txAllocSet = T.txAllocSet
  clwbs : T'.clwbs = T.clwbs
  nvmFrees : T'.nvmFrees = T.nvmFrees

theorem after_call (T : Thread) (c : Call) : After T (call T c) [c] := by
  match c with
  | .deref => exact ⟨rfl, by simp [call, Call.appends], by simp [call, Call.locks],
      by simp [call, Call.frees], rfl, rfl, rfl⟩
  | .tryLock r =>
    constructor <;> cases r <;>
      simp [call, tsTryLock, Call.appends, Call.locks, Call.frees]
  | .free pAct =>
    by_cases h : pAct = 0 <;> constructor <;>
      simp [call, tsFree, h, Call.appends, Call.locks, Call.frees]
  | .alloc ahs size =>
    by_cases h : ahs = 0 <;> constructor <;>
      simp [call, tsAlloc, h, Call.appends, Call.locks, Call.frees]

/-- The calls of a transaction, one after the other. -/
theorem after_body (T : Thread) (body : List Call) : After T (body.foldl call T) body := by
  induction body generalizing T with
  | nil => constructor <;> simp
  | cons c body ih =>
    have h1 := after_call T c
    have h2 := ih (call T c)
    simp only [List.foldl_cons]
    constructor
    · rw [h2.runCnt, h1.runCnt]
    · rw [h2.curWrtSet, h1.curWrtSet]
      simp [Bool.or_assoc]
    · rw [h2.isWriteDetected, h1.isWriteDetected]
      simp [Bool.or_assoc]
    · rw [h2.txFreeSet, h1.txFreeSet]
      simp [and_assoc]
    · rw [h2.txAllocSet, h1.txAllocSet]
    · rw [h2.clwbs, h1.clwbs]
    · rw [h2.nvmFrees, h1.nvmFrees]

/-- The loops over `tx_alloc_set` do nothing when the set is empty. -/
theorem drainAllocSet_of_empty {body : Thread → ℕ → Thread} (h : T.txAllocSet.numPtrs = 0)
    (n : ℕ) : drainAllocSet body (n + 1) T = T := by
  simp only [drainAllocSet, ptrsetPop_of_empty h, if_true]

theorem freeNewAct_of_empty (h : T.txAllocSet.numPtrs = 0) : freeNewAct T = T :=
  drainAllocSet_of_empty h _

theorem flushNewAct_of_empty (h : T.txAllocSet.numPtrs = 0) : flushNewAct T = T :=
  drainAllocSet_of_empty h _

theorem runCnt_drainAllocSet {body : Thread → ℕ → Thread}
    (hbody : ∀ T a, (body T a).runCnt = T.runCnt) (n : ℕ) (T : Thread) :
    (drainAllocSet body n T).runCnt = T.runCnt := by
  induction n generalizing T with
  | zero => rfl
  | succ n ih =>
    simp only [drainAllocSet]
    split
    · rfl
    · rw [ih, hbody]

theorem runCnt_freeNewAct (T : Thread) : (freeNewAct T).runCnt = T.runCnt := by
  refine runCnt_drainAllocSet ?_ _ _
  exact fun _ _ => rfl

theorem runCnt_flushNewAct (T : Thread) : (flushNewAct T).runCnt = T.runCnt := by
  refine runCnt_drainAllocSet ?_ _ _
  exact fun _ _ => rfl

@[simp]
theorem runCnt_tsAbort (T : Thread) : (tsAbort T).runCnt = T.runCnt + 1 := by
  rw [tsAbort, runCnt_freeNewAct]
  split
  · rfl
  · rfl

@[simp]
theorem runCnt_tsEnd (T : Thread) (valid : Bool) : (tsEnd T valid).1.runCnt = T.runCnt + 1 := by
  rw [tsEnd]
  split
  · exact runCnt_tsAbort T
  · simp only [runCnt_flushNewAct]
    split
    · rfl
    · rfl

/-- `ts_abort` closes the write set if there is one. -/
theorem tsAbort_of_empty (h : T.txAllocSet.numPtrs = 0) :
    tsAbort T = if T.curWrtSet then closeWrtSet { T with runCnt := T.runCnt + 1 }
      else { T with runCnt := T.runCnt + 1 } := by
  rw [tsAbort, freeNewAct_of_empty]
  split
  · exact h
  · exact h

/-- `ts_end` closes the write set if a lock was taken. -/
theorem tsEnd_of_empty (h : T.txAllocSet.numPtrs = 0) :
    (tsEnd T true).1 = if T.isWriteDetected then closeWrtSet { T with runCnt := T.runCnt + 1 }
      else { T with runCnt := T.runCnt + 1 } := by
  rw [tsEnd, if_neg (by decide)]
  simp only
  split
  · exact flushNewAct_of_empty h
  · exact flushNewAct_of_empty h

/-! ### Between transactions -/

/-- The transactions that leave their thread clean.  One that commits has taken a lock, or
it has neither lost a compare-and-swap behind `tvlog_append_begin` nor called `ts_free`; one
that aborts has reached `tvlog_append_begin`, or it has not called `ts_free`. -/
def Tx.LeavesNothing (tx : Tx) : Prop :=
  match tx.ending with
  | .commit => tx.body.any Call.locks = true ∨
      tx.body.any Call.appends = false ∧ tx.body.any Call.frees = false
  | .invalid | .abort => tx.body.any Call.appends = true ∨ tx.body.any Call.frees = false

theorem IsInit.clean (h : IsInit T) : Clean T :=
  ⟨h.2.2.1, h.2.2.2.1, h.2.2.2.2, h.2.1, h.1 ▸ Even.zero⟩

theorem locks_imp_appends (body : List Call) (h : body.any Call.locks = true) :
    body.any Call.appends = true := by
  rw [List.any_eq_true] at h ⊢
  obtain ⟨c, hc, hl⟩ := h
  refine ⟨c, hc, ?_⟩
  rw [Call.locks.eq_def] at hl
  split at hl
  · rfl
  · contradiction

/-- The common end of `ts_end` and `ts_abort`: with `close` the write set is closed. -/
theorem clean_close_iff (close : Bool) (halloc : T.txAllocSet.numPtrs = 0)
    (hodd : Even (T.runCnt + 1)) :
    Clean (if close then closeWrtSet { T with runCnt := T.runCnt + 1 }
      else { T with runCnt := T.runCnt + 1 }) ↔
    close = true ∨
      T.curWrtSet = false ∧ T.txFreeSet.numPtrs = 0 ∧ T.isWriteDetected = false := by
  rcases close with _ | _
  · simp only [Bool.false_eq_true, if_false, false_or]
    constructor
    · exact fun h => ⟨h.curWrtSet, h.txFreeSet, h.isWriteDetected⟩
    · rintro ⟨h1, h2, h3⟩
      exact ⟨h1, h2, halloc, h3, hodd⟩
  · exact iff_of_true ⟨rfl, rfl, halloc, rfl, hodd⟩ (.inl rfl)

/-- From a clean thread, one transaction. -/
theorem clean_runTx_iff (h : Clean T) (tx : Tx) : Clean (runTx T tx) ↔ tx.LeavesNothing := by
  have ha := after_body (tsBegin T) tx.body
  rw [runTx]
  generalize tx.body.foldl call (tsBegin T) = T₁ at ha
  have hcur : T₁.curWrtSet = tx.body.any Call.appends := by
    rw [ha.curWrtSet, tsBegin, h.curWrtSet, Bool.false_or]
  have hwrite : T₁.isWriteDetected = tx.body.any Call.locks := by
    rw [ha.isWriteDetected, tsBegin, h.isWriteDetected, Bool.false_or]
  have hfree : T₁.txFreeSet.numPtrs = 0 ↔ tx.body.any Call.frees = false := by
    rw [ha.txFreeSet, tsBegin, h.txFreeSet, eq_self, true_and]
  have halloc : T₁.txAllocSet.numPtrs = 0 := by
    rw [ha.txAllocSet]
    exact h.txAllocSet
  have heven : Even (T₁.runCnt + 1) := by
    rw [ha.runCnt]
    exact h.runCnt.add_one.add_one
  -- a transaction without a write set has taken no lock
  have hlocks : tx.body.any Call.appends = false → tx.body.any Call.locks = false := by
    intro hn
    by_contra hl
    rw [locks_imp_appends _ (by simpa using hl)] at hn
    contradiction
  have habort : Clean (tsAbort T₁) ↔
      tx.body.any Call.appends = true ∨ tx.body.any Call.frees = false := by
    rw [tsAbort_of_empty halloc, clean_close_iff _ halloc heven, hcur, hwrite, hfree]
    constructor
    · exact Or.imp id fun hn => hn.2.1
    · intro hn
      rcases hap : tx.body.any Call.appends with _ | _
      · rw [hap] at hn
        exact .inr ⟨rfl, hn.resolve_left (by decide), hlocks hap⟩
      · exact .inl rfl
  rw [Tx.LeavesNothing]
  rcases tx.ending with _ | _ | _
  · rw [finish, tsEnd_of_empty halloc, clean_close_iff _ halloc heven, hcur, hwrite, hfree]
    constructor
    · exact Or.imp id fun hn => ⟨hn.1, hn.2.1⟩
    · exact Or.imp id fun hn => ⟨hn.1, hn.2, hlocks hn.1⟩
  · exact habort
  · exact habort

/-- After `ts_thread_init`, a thread is clean after each of its transactions if and only if
none of them leaves something behind. -/
theorem clean_iff (h : IsInit T) (txs : List Tx) :
    (∀ pre, pre <+: txs → Clean (pre.foldl runTx T)) ↔ ∀ tx ∈ txs, tx.LeavesNothing := by
  have hclean := h.clean
  clear h
  induction txs generalizing T with
  | nil =>
    refine iff_of_true ?_ nofun
    rintro pre ⟨l, hl⟩
    obtain ⟨rfl, -⟩ := List.append_eq_nil_iff.mp hl
    exact hclean
  | cons tx txs ih =>
    rw [List.forall_mem_cons]
    constructor
    · intro hall
      have htx := hall [tx] ⟨txs, rfl⟩
      refine ⟨(clean_runTx_iff hclean tx).mp htx, (ih htx).mp fun pre hpre => ?_⟩
      exact hall (tx :: pre) ((List.prefix_cons_inj tx).mpr hpre)
    · rintro ⟨htx, htxs⟩ pre hpre
      have hfirst := (clean_runTx_iff hclean tx).mpr htx
      rcases pre with _ | ⟨tx', pre⟩
      · exact hclean
      · obtain ⟨rfl, htail⟩ := List.cons_prefix_cons.mp hpre
        exact (ih hfirst).mpr htxs pre htail

/-- A thread fresh from `ts_thread_init`. -/
def fresh : Thread := ⟨0, false, false, ⟨0, fun _ => 0⟩, ⟨0, fun _ => 0⟩, fun _ => 0, [], []⟩

/-- A writer that frees an object, a reader, and a writer that loses a compare-and-swap and
aborts. -/
theorem clean_iff_three :
    (∀ pre, pre <+: [⟨[.tryLock .locked, .free 8], .commit⟩, ⟨[.deref], .commit⟩,
        ⟨[.tryLock .lostCas], .abort⟩] → Clean (pre.foldl runTx fresh)) ↔
      ∀ tx ∈ ([⟨[.tryLock .locked, .free 8], .commit⟩, ⟨[.deref], .commit⟩,
        ⟨[.tryLock .lostCas], .abort⟩] : List Tx), tx.LeavesNothing :=
  clean_iff ⟨rfl, rfl, rfl, rfl, rfl⟩ _

/-- A transaction whose only lock loses the compare-and-swap goes on and commits: its write
set stays. -/
theorem write_set_left_open :
    ¬ ∀ T, IsInit T → ∀ txs : List Tx, Clean (txs.foldl runTx T) := by
  intro h
  have hclean := h fresh ⟨rfl, rfl, rfl, rfl, rfl⟩ [⟨[.tryLock .lostCas], .commit⟩]
  exact absurd hclean.curWrtSet (by decide)

/-! ### The objects of a transaction -/

/-- The addresses that the transaction has given to `clwb`. -/
def newClwbs (T : Thread) (tx : Tx) : List ℕ := (runTx T tx).clwbs.drop T.clwbs.length

/-- The addresses that the transaction has given to `nvm_free`. -/
def newFrees (T : Thread) (tx : Tx) : List ℕ := (runTx T tx).nvmFrees.drop T.nvmFrees.length

/-- The address lies in a cache line of the object at `o.1`, header included. -/
def OnLineOf (o : ℕ × ℕ) (a : ℕ) : Prop :=
  ∃ i < sizeofActHdrStruct + o.2, a / cacheLineSize = (o.1 + i) / cacheLineSize

/-- The objects that a transaction has allocated follow its outcome. -/
structure FollowsOutcome (T : Thread) (tx : Tx) : Prop where
  /-- After a commit every cache line of each of them is flushed. -/
  flushed : tx.ending = .commit → ∀ o ∈ allocated tx.body, ∀ i < sizeofActHdrStruct + o.2,
    ∃ a ∈ newClwbs T tx, a / cacheLineSize = (o.1 + i) / cacheLineSize
  /-- After an abort each of them is freed once. -/
  freed : tx.ending ≠ .commit → ∀ o ∈ allocated tx.body, (newFrees T tx).count o.1 = 1
  /-- No other object is touched. -/
  others : (∀ a ∈ newClwbs T tx, ∃ o ∈ allocated tx.body, OnLineOf o a) ∧
    ∀ a ∈ newFrees T tx, ∃ o ∈ allocated tx.body, a = o.1

/-- A transaction neither flushes nor frees an object: nothing enters `tx_alloc_set`. -/
theorem runTx_nvm (h : T.txAllocSet.numPtrs = 0) (tx : Tx) :
    (runTx T tx).txAllocSet.numPtrs = 0 ∧ (runTx T tx).clwbs = T.clwbs ∧
      (runTx T tx).nvmFrees = T.nvmFrees := by
  have ha := after_body (tsBegin T) tx.body
  rw [runTx]
  generalize tx.body.foldl call (tsBegin T) = T₁ at ha
  have halloc : T₁.txAllocSet.numPtrs = 0 := by
    rw [ha.txAllocSet]
    exact h
  have hclose : ∀ close : Bool, ∀ T', T' = (if close then
      closeWrtSet { T₁ with runCnt := T₁.runCnt + 1 } else { T₁ with runCnt := T₁.runCnt + 1 }) →
      T'.txAllocSet.numPtrs = 0 ∧ T'.clwbs = T.clwbs ∧ T'.nvmFrees = T.nvmFrees := by
    rintro (_ | _) T' rfl
    · exact ⟨halloc, ha.clwbs, ha.nvmFrees⟩
    · exact ⟨halloc, ha.clwbs, ha.nvmFrees⟩
  rcases tx.ending with _ | _ | _
  · exact hclose _ _ (tsEnd_of_empty halloc)
  · exact hclose _ _ (tsAbort_of_empty halloc)
  · exact hclose _ _ (tsAbort_of_empty halloc)

theorem txAllocSet_of_history (h : T.txAllocSet.numPtrs = 0) (txs : List Tx) :
    (txs.foldl runTx T).txAllocSet.numPtrs = 0 := by
  induction txs generalizing T with
  | nil => exact h
  | cons tx txs ih => exact ih (runTx_nvm h tx).1

/-- In every history of a thread, the objects that a transaction obtains from `ts_alloc`
follow its outcome if and only if it obtains none. -/
theorem followsOutcome_iff (h : IsInit T) (history : List Tx) (tx : Tx) :
    FollowsOutcome (history.foldl runTx T) tx ↔ allocated tx.body = [] := by
  obtain ⟨-, hclwbs, hfrees⟩ := runTx_nvm (txAllocSet_of_history h.2.2.2.2 history) tx
  have hnoClwb : newClwbs (history.foldl runTx T) tx = [] := by
    rw [newClwbs, hclwbs, List.drop_length]
  have hnoFree : newFrees (history.foldl runTx T) tx = [] := by
    rw [newFrees, hfrees, List.drop_length]
  constructor
  · intro hf
    by_contra hne
    obtain ⟨o, ho⟩ := List.exists_mem_of_ne_nil _ hne
    by_cases hend : tx.ending = .commit
    · -- the first line of the object has not been flushed
      obtain ⟨a, ha, -⟩ := hf.flushed hend o ho 0 (Nat.add_pos_left (by decide) _)
      rw [hnoClwb] at ha
      contradiction
    · have hone := hf.freed hend o ho
      rw [hnoFree] at hone
      contradiction
  · intro hnil
    refine ⟨?_, ?_, ?_, ?_⟩
    · rw [hnil]
      exact fun _ => nofun
    · rw [hnil]
      exact fun _ => nofun
    · rw [hnoClwb]
      exact nofun
    · rw [hnoFree]
      exact nofun

theorem followsOutcome_iff_second :
    FollowsOutcome ([⟨[.alloc 64 8, .tryLock .locked], .commit⟩].foldl runTx fresh)
      ⟨[.deref], .commit⟩ ↔ allocated [.deref] = [] :=
  followsOutcome_iff ⟨rfl, rfl, rfl, rfl, rfl⟩ _ _

/-- A transaction allocates an object and aborts: the object is not freed. -/
theorem new_object_leaked :
    ¬ ∀ T, IsInit T → ∀ (history : List Tx) (tx : Tx),
      FollowsOutcome (history.foldl runTx T) tx := by
  intro h
  have hf := h fresh ⟨rfl, rfl, rfl, rfl, rfl⟩ [] ⟨[.alloc 64 8], .abort⟩
  exact absurd (hf.freed (by decide) (64, 8) (by decide)) (by decide)

/-! ### The retry loop -/

/-- The calls that the loop of `ts_txn::run` makes for one execution of the body, where
`ts_abort` may also be called by `ts_end`; `body` is a call made by the body itself. -/
inductive Kind
  | begin
  | body
  | endOk
  | abort
  deriving DecidableEq

/-- A call, with `run_cnt` when it is made. -/
structure Event where
  kind : Kind
  runCnt : ℕ
  deriving DecidableEq

/-- How one execution of the body ends: `ts_lock` fails at one of the return points, aborts
and jumps back; the validation of `ts_end` fails; or `ts_end` succeeds. -/
inductive Outcome
  | lockFails (r : LockReturn)
  | invalid
  | success
  deriving DecidableEq

/-- One execution of the body: its calls, and how it ends. -/
structure Attempt where
  calls : List Call
  outcome : Outcome
  deriving DecidableEq

/-- The calls of the body. -/
def runBody : Thread → List Call → Thread × List Event
  | T, [] => (T, [])
  | T, c :: cs =>
    let (T', evs) := runBody (call T c) cs
    (T', ⟨.body, T.runCnt⟩ :: evs)

/-- What follows the body: `ts_abort` and `longjmp` in `ts_lock`; or `ts_end`, and `ts_abort`
if it returns 0. -/
def endAttempt (T : Thread) : Outcome → Thread × List Event
  | .lockFails r =>
    let T' := tsTryLock T r
    (tsAbort T', [⟨.body, T.runCnt⟩, ⟨.abort, T'.runCnt⟩])
  | .invalid =>
    let T' := (tsEnd T false).1
    (tsAbort T', [⟨.abort, T.runCnt⟩, ⟨.abort, T'.runCnt⟩])
  | .success => ((tsEnd T true).1, [⟨.endOk, T.runCnt⟩])

/-- One round of the loop. -/
def runAttempt (T : Thread) (a : Attempt) : Thread × List Event :=
  let (T₁, evs) := runBody (tsBegin T) a.calls
  let (T₂, evs') := endAttempt T₁ a.outcome
  (T₂, ⟨.begin, T.runCnt⟩ :: (evs ++ evs'))

/-- The rounds of the loop, and of the calls of `ts_txn::run` that follow. -/
def runAttempts : Thread → List Attempt → Thread × List Event
  | T, [] => (T, [])
  | T, a :: as =>
    let (T₁, evs) := runAttempt T a
    let (T₂, evs') := runAttempts T₁ as
    (T₂, evs ++ evs')

/-- A call of `ts_txn::run`: the executions of the body that fail, each with its calls, and
the last one, which succeeds. -/
structure TxnRun where
  level : Level
  readWrite : Bool
  failed : List Attempt
  last : List Call
  deriving DecidableEq

/-- The outcomes that a call of `ts_txn::run` can have: only a read-write transaction calls
`ts_lock`, which has a point to jump back to; and `validate_read_set` does not fail at the
level `TS_SNAPSHOT`. -/
def TxnRun.Legal (r : TxnRun) : Prop :=
  ∀ a ∈ r.failed, match a.outcome with
    | .lockFails ret => r.readWrite = true ∧ ret ≠ .locked
    | .invalid => r.level ≠ .snapshot
    | .success => False

def TxnRun.attempts (r : TxnRun) : List Attempt := r.failed ++ [⟨r.last, .success⟩]

/-- `ts_txn::run`, called one time after the other. -/
def tsTxnRuns (T : Thread) (rs : List TxnRun) : Thread × List Event :=
  runAttempts T (rs.flatMap TxnRun.attempts)

/-- Every `ts_begin` is followed by one successful `ts_end` or by one `ts_abort`. -/
def Matched : List Kind → Prop
  | [] => True
  | .begin :: .endOk :: ks | .begin :: .abort :: ks => Matched ks
  | _ => False

/-- `run_cnt` is odd while the body is executed, up to its `ts_end` or `ts_abort`, and even
when `ts_begin` is called. -/
def Event.InStep (e : Event) : Prop :=
  match e.kind with
  | .begin => Even e.runCnt
  | .body | .endOk | .abort => Odd e.runCnt

/-- The calls are balanced. -/
structure Balanced (r : Thread × List Event) : Prop where
  matched : Matched ((r.2.map Event.kind).filter (· ≠ .body))
  inStep : ∀ e ∈ r.2, e.InStep
  runCnt : Even r.1.runCnt

theorem runCnt_tsTryLock (T : Thread) (r : LockReturn) : (tsTryLock T r).runCnt = T.runCnt :=
  (after_call T (.tryLock r)).runCnt

/-- The body neither begins nor ends a transaction. -/
theorem runBody_spec (T : Thread) (cs : List Call) :
    (runBody T cs).1.runCnt = T.runCnt ∧ ∀ e ∈ (runBody T cs).2, e = ⟨.body, T.runCnt⟩ := by
  induction cs generalizing T with
  | nil => exact ⟨rfl, nofun⟩
  | cons c cs ih =>
    obtain ⟨hcnt, hevs⟩ := ih (call T c)
    rw [(after_call T c).runCnt] at hcnt hevs
    refine ⟨hcnt, fun e he => ?_⟩
    rcases List.mem_cons.mp he with rfl | he
    · rfl
    · exact hevs e he

/-- The calls at the end of an attempt. -/
def Outcome.kinds : Outcome → List Kind
  | .lockFails _ => [.abort]
  | .invalid => [.abort, .abort]
  | .success => [.endOk]

theorem kinds_runAttempt (T : Thread) (a : Attempt) :
    ((runAttempt T a).2.map Event.kind).filter (· ≠ .body) = .begin :: a.outcome.kinds := by
  have hbody : ((runBody (tsBegin T) a.calls).2.map Event.kind).filter (· ≠ .body) = [] := by
    rw [List.filter_eq_nil_iff]
    intro k hk
    obtain ⟨e, he, rfl⟩ := List.mem_map.mp hk
    simp [(runBody_spec _ _).2 e he]
  rw [runAttempt]
  simp only [List.map_cons, List.map_append, List.filter_append, List.filter_cons, hbody]
  rcases a.outcome with r | _ | _
  · simp [endAttempt, Outcome.kinds]
  · simp [endAttempt, Outcome.kinds]
  · simp [endAttempt, Outcome.kinds]

theorem matched_cons_iff (o : Outcome) (ks : List Kind) :
    Matched (.begin :: (o.kinds ++ ks)) ↔ o ≠ .invalid ∧ Matched ks := by
  rcases o with r | _ | _
  · simp [Outcome.kinds, Matched]
  · simp [Outcome.kinds, Matched]
  · simp [Outcome.kinds, Matched]

theorem matched_runAttempts_iff (T : Thread) (as : List Attempt) :
    Matched (((runAttempts T as).2.map Event.kind).filter (· ≠ .body)) ↔
      ∀ a ∈ as, a.outcome ≠ .invalid := by
  induction as generalizing T with
  | nil => simp [runAttempts, Matched]
  | cons a as ih =>
    rw [runAttempts]
    simp only [List.map_append, List.filter_append, kinds_runAttempt, List.cons_append]
    rw [matched_cons_iff, ih, List.forall_mem_cons]

/-- An attempt whose validation does not fail adds two to `run_cnt`. -/
theorem inStep_runAttempt (h : Even T.runCnt) {a : Attempt} (ha : a.outcome ≠ .invalid) :
    (∀ e ∈ (runAttempt T a).2, e.InStep) ∧ Even (runAttempt T a).1.runCnt := by
  obtain ⟨hcnt, hevs⟩ := runBody_spec (tsBegin T) a.calls
  have hbegin : (tsBegin T).runCnt = T.runCnt + 1 := rfl
  rw [hbegin] at hcnt hevs
  have hodd : Odd (T.runCnt + 1) := h.add_one
  have hbody : ∀ e ∈ (runBody (tsBegin T) a.calls).2, e.InStep := by
    intro e he
    rw [hevs e he]
    exact hodd
  have hcons : ∀ evs : List Event, (∀ e ∈ evs, e.InStep) → ∀ e ∈ (⟨.begin, T.runCnt⟩ ::
      ((runBody (tsBegin T) a.calls).2 ++ evs) : List Event), e.InStep := by
    intro evs hevs e he
    rcases List.mem_cons.mp he with rfl | he
    · exact h
    · exact (List.mem_append.mp he).elim (hbody e) (hevs e)
  rw [runAttempt]
  rcases ho : a.outcome with r | _ | _
  · refine ⟨hcons _ ?_, ?_⟩
    · intro e he
      simp only [endAttempt, List.mem_cons, List.not_mem_nil, or_false] at he
      rcases he with rfl | rfl
      · exact hcnt ▸ hodd
      · rw [Event.InStep, runCnt_tsTryLock, hcnt]
        exact hodd
    · simp only [endAttempt, runCnt_tsAbort, runCnt_tsTryLock, hcnt]
      exact hodd.add_one
  · contradiction
  · refine ⟨hcons _ ?_, ?_⟩
    · intro e he
      simp only [endAttempt, List.mem_singleton] at he
      rw [he, Event.InStep, hcnt]
      exact hodd
    · simp only [endAttempt, runCnt_tsEnd, hcnt]
      exact hodd.add_one

theorem inStep_runAttempts (h : Even T.runCnt) {as : List Attempt}
    (has : ∀ a ∈ as, a.outcome ≠ .invalid) :
    (∀ e ∈ (runAttempts T as).2, e.InStep) ∧ Even (runAttempts T as).1.runCnt := by
  induction as generalizing T with
  | nil => exact ⟨nofun, h⟩
  | cons a as ih =>
    rw [List.forall_mem_cons] at has
    obtain ⟨h1, heven⟩ := inStep_runAttempt h has.1
    obtain ⟨h2, hend⟩ := ih heven has.2
    rw [runAttempts]
    refine ⟨fun e he => ?_, hend⟩
    exact (List.mem_append.mp he).elim (h1 e) (h2 e)

/-- The calls of `ts_txn::run` on a thread are balanced if and only if no `ts_end` in them
fails its validation. -/
theorem balanced_iff (h : IsInit T) (rs : List TxnRun) :
    Balanced (tsTxnRuns T rs) ↔ ∀ r ∈ rs, ∀ a ∈ r.failed, a.outcome ≠ .invalid := by
  have hall : (∀ a ∈ rs.flatMap TxnRun.attempts, a.outcome ≠ .invalid) ↔
      ∀ r ∈ rs, ∀ a ∈ r.failed, a.outcome ≠ .invalid := by
    simp only [List.mem_flatMap, TxnRun.attempts, List.mem_append, List.mem_singleton]
    constructor
    · exact fun hf r hr a ha => hf a ⟨r, hr, .inl ha⟩
    · rintro hf a ⟨r, hr, ha | rfl⟩
      · exact hf r hr a ha
      · exact nofun
  rw [← hall]
  constructor
  · exact fun hb => (matched_runAttempts_iff T _).mp hb.matched
  · intro hf
    obtain ⟨hin, heven⟩ := inStep_runAttempts h.clean.runCnt hf
    exact ⟨(matched_runAttempts_iff T _).mpr hf, hin, heven⟩

/-- The first run takes a lock in its second attempt. -/
theorem balanced_iff_retry :
    Balanced (tsTxnRuns fresh [⟨.snapshot, true, [⟨[.deref], .lockFails .isLocked⟩],
        [.deref, .tryLock .locked]⟩]) ↔
      ∀ r ∈ ([⟨.snapshot, true, [⟨[.deref], .lockFails .isLocked⟩],
        [.deref, .tryLock .locked]⟩] : List TxnRun), ∀ a ∈ r.failed, a.outcome ≠ .invalid :=
  balanced_iff ⟨rfl, rfl, rfl, rfl, rfl⟩ _

/-- A validation fails: the loop calls `ts_abort` once more, outside the transaction, and
`run_cnt` is odd from there on. -/
theorem abort_outside_transaction :
    ¬ ∀ T, IsInit T → ∀ rs : List TxnRun, (∀ r ∈ rs, r.Legal) → Balanced (tsTxnRuns T rs) := by
  intro h
  have hlegal : ∀ r ∈ ([⟨.linearizability, true, [⟨[.deref], .invalid⟩], [.deref]⟩] :
      List TxnRun), r.Legal := by
    simp [TxnRun.Legal]
  have hb := h fresh ⟨rfl, rfl, rfl, rfl, rfl⟩ _ hlegal
  have hodd : Odd 2 := hb.inStep ⟨.abort, 2⟩ (by decide)
  exact absurd hodd (by decide)

end TimeStone.ThreadApi
