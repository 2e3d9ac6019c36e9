/-
The isolation level `TS_SERIALIZABILITY`: whole transactions on objects without
checkpoints (`timestone.c`, `isolation.h`).

A call of the API is one step.  Clock readings increase by more than the ordo boundary
`B`, so a transaction is named by its local clock, and a copy by its object and the
transaction that made it.  Without checkpoints `np_cur_act` of an object is the original
master, and `__last_ckpt` is `MIN_VERSION`, which no `wrt_clk_next` is below: the loop of
`ts_deref` goes on to the end of the chain.

`validate_read_set` compares the newest copy at the end with the newest copy at the
dereference.  A transaction that dereferenced an object whose newest copy was already too
new for it read an older one, and still validates.

* `serializable_of_noStaleWriter` — without such reads by transactions that write, the
  committed transactions are serializable;
* `write_skew` — with one, they need not be.
-/
import Mathlib.Data.List.TakeWhile
import Mathlib.Data.Nat.Basic
import TimeStone.Clock
import TimeStone.Isolation
import TimeStone.Lib.Run
import TimeStone.Lib.Serial

namespace TimeStone.SerialLevel

/-- A pointer to an object: the copy of `o` by the transaction `i`, or the master of
`o`. -/
inductive Ptr
  | copy (o i : ℕ)
  | act (o : ℕ)
  deriving DecidableEq

/-- The object behind a pointer. -/
def Ptr.obj : Ptr → ℕ
  | .copy o _ => o
  | .act o => o

/-- The transaction whose version a pointer leads to, if it is not the master. -/
def Ptr.version : Ptr → Option ℕ
  | .copy _ i => some i
  | .act _ => none

/-- A copy in the version chain of an object. -/
structure Copy where
  tx : ℕ
  wrtClk : ℕ
  deriving DecidableEq

/-- A copy in a write set: its object, and whether its size is zero. -/
structure Locked where
  obj : ℕ
  isConst : Bool
  deriving DecidableEq

/-- The transaction a thread is in. -/
structure Tx where
  localClk : ℕ
  isolation : IsolationInfo ℕ Ptr
  wrtSet : List Locked
  deriving DecidableEq

/-- The objects that the transaction makes new versions of. -/
def Tx.writes (tx : Tx) : List ℕ := (tx.wrtSet.filter fun w => !w.isConst).map Locked.obj

/-- A transaction whose `ts_end` returned 1, with its write clock. -/
structure Commit where
  tx : Tx
  wrtClk : ℕ
  deriving DecidableEq

/-- What a committed transaction has read and written. -/
def Commit.txn (c : Commit) : Serial.Txn ℕ ℕ :=
  ⟨c.tx.localClk, c.tx.isolation.readSet.map fun e => (e.copy.obj, e.copy.version), c.tx.writes⟩

/-- The state: `clk` is the last clock reading, `chain` the version chain of an object
from `p_copy` on, `vhdr` says which objects have a volatile header. -/
structure State where
  clk : ℕ
  thread : ℕ → Option Tx
  vhdr : ℕ → Bool
  pLock : ℕ → Option ℕ
  chain : ℕ → List Copy
  committed : List Commit

/-- No transaction has begun. -/
def initial : State where
  clk := 0
  thread := fun _ => none
  vhdr := fun _ => false
  pLock := fun _ => none
  chain := fun _ => []
  committed := []

/-- The calls of thread `t`; `v` is a clock reading. -/
inductive Op
  | tsBegin (t v : ℕ)
  | deref (t o : ℕ)
  | tryLock (t o : ℕ) (isConst : Bool)
  | tsEnd (t v : ℕ)
  | abort (t : ℕ)

/-- The loop of `ts_deref` over a version chain. -/
def walk (B localClk o : ℕ) : List Copy → Ptr
  | [] => .act o
  | c :: cs => if ltClock B c.wrtClk localClk then .copy o c.tx else walk B localClk o cs

namespace State

variable (s : State)

/-- `p_copy` of the volatile header of `o`. -/
def pCopy (o : ℕ) : Option Ptr := (s.chain o).head?.map fun c => .copy o c.tx

/-- `get_act_vhdr`. -/
def getActVhdr (p : Ptr) : Option ℕ := if s.vhdr p.obj then some p.obj else none

/-- What `ts_deref` adds to the read set. -/
def derefEntry (B localClk o : ℕ) : ReadEntry ℕ Ptr :=
  if s.vhdr o then ⟨some o, s.pCopy o, walk B localClk o (s.chain o)⟩
  else ⟨none, none, .act o⟩

/-- The transaction of thread `t` goes on as `tx`. -/
def setTx (t : ℕ) (tx : Tx) : State := { s with thread := Function.update s.thread t (some tx) }

/-- `_ts_try_lock` is not refused: no transaction holds the lock of `o`, and its newest
copy is old enough. -/
def MayLock (B localClk o : ℕ) : Prop :=
  s.pLock o = none ∧ ∀ c ∈ (s.chain o).head?, ltClock B c.wrtClk localClk

instance (B localClk o : ℕ) : Decidable (s.MayLock B localClk o) :=
  inferInstanceAs (Decidable (_ ∧ _))

/-- `_ts_try_lock`.  The volatile header is allocated in any case; taking a lock again
changes nothing. -/
def tryLock (B t : ℕ) (tx : Tx) (w : Locked) : State :=
  let s₁ := { s with vhdr := Function.update s.vhdr w.obj true }
  if s.MayLock B tx.localClk w.obj then
    { s₁ with pLock := Function.update s.pLock w.obj (some tx.localClk) }.setTx t
      { tx with wrtSet := tx.wrtSet ++ [w] }
  else s₁

/-- The locks of `tx` are released and the transaction is over. -/
def release (t : ℕ) (tx : Tx) : State :=
  { s with
    thread := Function.update s.thread t none
    pLock := fun o => if s.pLock o = some tx.localClk then none else s.pLock o }

/-- `tvlog_commit` with the write clock `v`. -/
def tvlogCommit (tx : Tx) (v : ℕ) : State :=
  { s with
    clk := v
    chain := fun o => if o ∈ tx.writes then ⟨tx.localClk, v⟩ :: s.chain o else s.chain o }

/-- `ts_end` is about to return 1. -/
def record (c : Commit) : State := { s with committed := c :: s.committed }

/-- `ts_end`. -/
def tsEnd (B t : ℕ) (tx : Tx) (v : ℕ) : Option State :=
  if tx.isolation.validateReadSet s.pCopy s.getActVhdr then
    if tx.wrtSet = [] then some ((s.release t tx).record ⟨tx, v⟩)
    else if ltClock B s.clk v ∧ gtClock B v (tx.localClk + B) then
      some (((s.tvlogCommit tx v).release t tx).record ⟨tx, v⟩)
    else none
  else some (s.release t tx)

end State

/-- One call. -/
def step (B : ℕ) (s : State) : Op → Option State
  | .tsBegin t v =>
    if s.thread t = none ∧ ltClock B s.clk v then
      some ({ s with clk := v }.setTx t ⟨v, .reset .serializability, []⟩)
    else none
  | .deref t o =>
    (s.thread t).map fun tx =>
      s.setTx t { tx with isolation := tx.isolation.readSetAdd (s.derefEntry B tx.localClk o) }
  | .tryLock t o isConst => (s.thread t).map fun tx => s.tryLock B t tx ⟨o, isConst⟩
  | .tsEnd t v => (s.thread t).bind fun tx => s.tsEnd B t tx v
  | .abort t => (s.thread t).map fun tx => s.release t tx

/-- The states of runs that keep to the condition `ok`. -/
abbrev Reachable (B : ℕ) (ok : State → Op → Prop) : State → Prop :=
  Run.Reach (· = initial) (step B) ok

/-- The committed transactions have a serial order. -/
def Serializable (s : State) : Prop := Serial.Serializable (s.committed.map Commit.txn)

instance (s : State) : Decidable (Serializable s) :=
  inferInstanceAs (Decidable (Serial.Serializable _))

/-- A transaction that writes ends only when all it has read was the newest version at
the time. -/
def NoStaleWriter (s : State) : Op → Prop
  | .tsEnd t _ => ∀ tx ∈ s.thread t, tx.writes ≠ [] → ∀ e ∈ tx.isolation.readSet, ¬ e.Stale
  | _ => True

instance (s : State) (op : Op) : Decidable (NoStaleWriter s op) := by
  unfold NoStaleWriter
  split <;> infer_instance

variable {B : ℕ} {s : State} {t : ℕ} {tx : Tx} {v : ℕ} {ord : List Commit}

/-- The time at which a transaction takes effect: its end when it writes, its beginning
when it only reads. -/
def Commit.point (c : Commit) : ℕ := if c.tx.writes = [] then c.tx.localClk else c.wrtClk

/-- The copy that a committed transaction has put into version chains. -/
def Commit.copy (c : Commit) : Copy := ⟨c.tx.localClk, c.wrtClk⟩

@[simp]
theorem Commit.copy_wrtClk (c : Commit) : c.copy.wrtClk = c.wrtClk := rfl

/-- The committed transactions, last one first, in the order in which they take effect,
with the version chains they have built. -/
structure Ordered (s : State) (ord : List Commit) : Prop where
  perm : ord.Perm s.committed
  sorted : ord.Pairwise fun a b => b.point ≤ a.point
  serial : Serial.IsSerial (ord.map Commit.txn)
  chain : ∀ o, s.chain o = (ord.filter fun c => o ∈ c.tx.writes).map Commit.copy

/-- What an entry of the read set of `tx` says about the chain of its object. -/
structure EntryOk (B : ℕ) (s : State) (localClk : ℕ) (e : ReadEntry ℕ Ptr) : Prop where
  vhdr : ∀ o ∈ e.actVhdr, o = e.copy.obj
  read : e.copy = walk B localClk e.copy.obj (s.chain e.copy.obj)

/-- What holds of the transaction a thread is in.  Its local clock is far from the write
clock of every version. -/
structure TxOk (B : ℕ) (s : State) (tx : Tx) : Prop where
  level : tx.isolation.level = .serializability
  clk : tx.localClk ≤ s.clk
  gap : ∀ o, ∀ c ∈ s.chain o, ltClock B c.wrtClk tx.localClk ∨ tx.localClk < c.wrtClk
  reads : ∀ e ∈ tx.isolation.readSet, EntryOk B s tx.localClk e
  vhdr : ∀ w ∈ tx.wrtSet, s.vhdr w.obj = true

/-- The invariant. -/
structure Inv (B : ℕ) (s : State) : Prop where
  order : ∃ ord, Ordered s ord
  clk : ∀ c ∈ s.committed, c.point ≤ s.clk
  vhdr : ∀ o, s.vhdr o = false → s.chain o = []
  tx : ∀ t, ∀ tx ∈ s.thread t, TxOk B s tx

/-! ## The version chain and the order of the transactions -/

theorem lastWriter_filter (o : ℕ) :
    Serial.lastWriter o (ord.map Commit.txn) =
      ((ord.filter fun c => o ∈ c.tx.writes).head?).map fun c => c.tx.localClk := by
  induction ord with
  | nil => rfl
  | cons c ord ih =>
    rw [List.map_cons, Serial.lastWriter, ih, List.filter_cons]
    by_cases h : o ∈ c.tx.writes
    · rw [if_pos (by exact h), if_pos (by simpa using h)]
      rfl
    · rw [if_neg (by exact h), if_neg (by simpa using h)]

theorem walk_obj (l : ℕ) (o : ℕ) (cs : List Copy) : (walk B l o cs).obj = o := by
  induction cs with
  | nil => rfl
  | cons c cs ih =>
    rw [walk]
    split
    · rfl
    · exact ih

/-- Versions that are too new for a local clock do not change what it reads. -/
theorem walk_append {l o : ℕ} {new old : List Copy} (h : ∀ c ∈ new, ¬ ltClock B c.wrtClk l) :
    walk B l o (new ++ old) = walk B l o old := by
  induction new with
  | nil => rfl
  | cons c new ih =>
    rw [List.cons_append, walk, if_neg (h c List.mem_cons_self)]
    exact ih fun c hc => h c (List.mem_cons_of_mem _ hc)

/-- When every version is old enough, the newest one is read. -/
theorem walk_version {l o : ℕ} {cs : List Copy} (h : ∀ c ∈ cs, ltClock B c.wrtClk l) :
    (walk B l o cs).version = cs.head?.map Copy.tx := by
  cases cs with
  | nil => rfl
  | cons c cs =>
    rw [walk, if_pos (h c List.mem_cons_self)]
    rfl

theorem dropWhile_point_le {l : ℕ} (h : ord.Pairwise fun a b => b.point ≤ a.point) :
    ∀ {c : Commit}, c ∈ ord.dropWhile (fun c => l < c.point) → c.point ≤ l := by
  induction ord with
  | nil => exact fun hc => absurd hc List.not_mem_nil
  | cons d ord ih =>
    intro c hc
    obtain ⟨hd, hord⟩ := List.pairwise_cons.mp h
    by_cases hl : l < d.point
    · rw [List.dropWhile_cons_of_pos (by simpa using hl)] at hc
      exact ih hord hc
    · rw [List.dropWhile_cons_of_neg (by simpa using hl)] at hc
      have hle : d.point ≤ l := by omega
      rcases List.mem_cons.mp hc with rfl | hc
      · exact hle
      · exact (hd c hc).trans hle

theorem point_eq_wrtClk {c : Commit} {o : ℕ} (h : o ∈ c.tx.writes) : c.point = c.wrtClk :=
  if_neg (List.ne_nil_of_mem h)

/-- What a transaction reads is what was written last before its beginning. -/
theorem Ordered.walk_version (ho : Ordered s ord) (htx : TxOk B s tx) (o : ℕ) :
    (walk B tx.localClk o (s.chain o)).version = Serial.lastWriter o
      ((ord.dropWhile fun c => tx.localClk < c.point).map Commit.txn) := by
  have hmem : ∀ c ∈ ord, o ∈ c.tx.writes → c.copy ∈ s.chain o := by
    intro c hc hw
    rw [ho.chain o]
    exact List.mem_map_of_mem (List.mem_filter.mpr ⟨hc, by simpa using hw⟩)
  -- the order is split at the beginning of the transaction, and the chain with it
  have hsplit : s.chain o =
      ((ord.takeWhile fun c => tx.localClk < c.point).filter fun c => o ∈ c.tx.writes).map
          Commit.copy ++
        ((ord.dropWhile fun c => tx.localClk < c.point).filter fun c => o ∈ c.tx.writes).map
          Commit.copy := by
    rw [← List.map_append, ← List.filter_append, List.takeWhile_append_dropWhile, ho.chain o]
  rw [hsplit, walk_append, SerialLevel.walk_version, lastWriter_filter, List.head?_map,
    Option.map_map]
  · rfl
  · intro c hc
    obtain ⟨d, hd, rfl⟩ := List.mem_map.mp hc
    obtain ⟨hd, hw⟩ := List.mem_filter.mp hd
    have hw : o ∈ d.tx.writes := by simpa using hw
    have hle := dropWhile_point_le ho.sorted hd
    rw [point_eq_wrtClk hw] at hle
    have hd : d ∈ ord := (List.dropWhile_sublist _).mem hd
    exact (htx.gap o _ (hmem d hd hw)).resolve_right (by simpa using hle)
  · intro c hc
    obtain ⟨d, hd, rfl⟩ := List.mem_map.mp hc
    obtain ⟨hd, hw⟩ := List.mem_filter.mp hd
    have hw : o ∈ d.tx.writes := by simpa using hw
    have hlt : tx.localClk < d.point := by simpa using List.mem_takeWhile_imp hd
    rw [point_eq_wrtClk hw] at hlt
    rw [ltClock_iff, Commit.copy_wrtClk]
    omega

/-- A transaction that only reads is put where it began. -/
theorem Ordered.insert_read {s' : State} (ho : Ordered s ord) (htx : TxOk B s tx)
    (hw : tx.writes = []) (hc : s'.chain = s.chain)
    (hm : s'.committed = ⟨tx, v⟩ :: s.committed) : ∃ ord', Ordered s' ord' := by
  have hpoint : (⟨tx, v⟩ : Commit).point = tx.localClk := if_pos hw
  have hsplit := List.takeWhile_append_dropWhile (p := fun c => tx.localClk < c.point) (l := ord)
  refine ⟨ord.takeWhile (fun c => tx.localClk < c.point) ++
    ⟨tx, v⟩ :: ord.dropWhile fun c => tx.localClk < c.point, ?_, ?_, ?_, ?_⟩
  · rw [hm]
    refine List.perm_middle.trans (.cons _ ?_)
    rw [hsplit]
    exact ho.perm
  · have hs := ho.sorted
    rw [← hsplit, List.pairwise_append] at hs
    refine List.pairwise_append.mpr ⟨hs.1, List.pairwise_cons.mpr ⟨fun c hc => ?_, hs.2.1⟩, ?_⟩
    · rw [hpoint]
      exact dropWhile_point_le ho.sorted hc
    · intro a ha b hb
      rcases List.mem_cons.mp hb with rfl | hb
      · rw [hpoint]
        have hlt : tx.localClk < a.point := by simpa using List.mem_takeWhile_imp ha
        exact hlt.le
      · exact hs.2.2 a ha b hb
  · rw [List.map_append, List.map_cons]
    refine Serial.IsSerial.insert ?_ hw fun r hr => ?_
    · rw [← List.map_append, hsplit]
      exact ho.serial
    · obtain ⟨e, he, rfl⟩ := List.mem_map.mp hr
      rw [← ho.walk_version htx, ← (htx.reads e he).read]
  · intro o
    rw [hc, ho.chain o, List.filter_append, List.filter_cons_of_neg (by simp [hw]),
      ← List.filter_append, hsplit]

/-- A validated entry of a read that was not stale shows the newest version. -/
theorem EntryOk.version {l : ℕ} {e : ReadEntry ℕ Ptr} (he : EntryOk B s l e)
    (hv : ∀ o, s.vhdr o = false → s.chain o = [])
    (hval : IsolationInfo.validateEntry s.pCopy s.getActVhdr e = true) (hs : ¬ e.Stale) :
    e.copy.version = (s.chain e.copy.obj).head?.map Copy.tx := by
  -- an object without copies is read from its master
  have hnil : s.chain e.copy.obj = [] →
      e.copy.version = (s.chain e.copy.obj).head?.map Copy.tx := by
    intro h
    rw [he.read, h, walk_obj, h]
    rfl
  have hnone : s.pCopy e.copy.obj = none → s.chain e.copy.obj = [] := by
    intro h
    simpa [State.pCopy] using h
  rw [IsolationInfo.validateEntry] at hval
  split at hval
  · rename_i o ho
    obtain rfl := he.vhdr o ho
    have hl : s.pCopy e.copy.obj = e.latest := of_decide_eq_true hval
    by_cases h : e.latest = none
    · exact hnil (hnone (hl.trans h))
    · -- the newest copy is the one that was read
      have hc : s.pCopy e.copy.obj = some e.copy := by
        rw [hl]
        by_contra hne
        exact hs ⟨h, hne⟩
      obtain ⟨c, hc, heq⟩ := Option.map_eq_some_iff.mp hc
      rw [hc, ← heq]
      rfl
  · split at hval
    · rename_i o ho
      have ho : e.copy.obj = o := by
        simp only [State.getActVhdr, Option.ite_none_right_eq_some, Option.some_inj] at ho
        exact ho.2
      exact hnil (hnone (ho ▸ of_decide_eq_true hval))
    · rename_i ho
      refine hnil (hv _ ?_)
      by_contra h
      rw [State.getActVhdr, if_pos (Bool.eq_true_of_not_eq_false h)] at ho
      cases ho

/-- A transaction that writes is put at the end. -/
theorem Ordered.append_write {s' : State} (ho : Ordered s ord)
    (hr : ∀ e ∈ tx.isolation.readSet, e.copy.version = (s.chain e.copy.obj).head?.map Copy.tx)
    (hw : tx.writes ≠ []) (hle : ∀ c ∈ s.committed, c.point ≤ v)
    (hc : ∀ o, s'.chain o = if o ∈ tx.writes then ⟨tx.localClk, v⟩ :: s.chain o else s.chain o)
    (hm : s'.committed = ⟨tx, v⟩ :: s.committed) : ∃ ord', Ordered s' ord' := by
  refine ⟨⟨tx, v⟩ :: ord, ?_, List.pairwise_cons.mpr ⟨fun c hc => ?_, ho.sorted⟩,
    ⟨fun r hr' => ?_, ho.serial⟩, fun o => ?_⟩
  · rw [hm]
    exact ho.perm.cons _
  · have hpoint : (⟨tx, v⟩ : Commit).point = v := if_neg hw
    rw [hpoint]
    exact hle c (ho.perm.mem_iff.mp hc)
  · obtain ⟨e, he, rfl⟩ := List.mem_map.mp hr'
    rw [lastWriter_filter, hr e he, ho.chain, List.head?_map,
      Option.map_map]
    rfl
  · rw [hc, ho.chain o, List.filter_cons]
    by_cases h : o ∈ tx.writes
    · rw [if_pos h, if_pos (by simpa using h)]
      rfl
    · rw [if_neg h, if_neg (by simpa using h)]

/-! ## Every call keeps the invariant -/

theorem Inv.chain_le (h : Inv B s) {o : ℕ} {c : Copy} (hc : c ∈ s.chain o) :
    c.wrtClk ≤ s.clk := by
  obtain ⟨ord, ho⟩ := h.order
  rw [ho.chain o] at hc
  obtain ⟨d, hd, rfl⟩ := List.mem_map.mp hc
  obtain ⟨hd, hw⟩ := List.mem_filter.mp hd
  rw [Commit.copy_wrtClk, ← point_eq_wrtClk (of_decide_eq_true hw)]
  exact h.clk d (ho.perm.mem_iff.mp hd)

/-- Calls that do not touch the version chains keep what holds of a transaction. -/
theorem TxOk.frame {s' : State} (h : TxOk B s tx) (hc : s'.chain = s.chain)
    (hclk : s.clk ≤ s'.clk) (hv : ∀ o, s.vhdr o = true → s'.vhdr o = true) : TxOk B s' tx where
  level := h.level
  clk := h.clk.trans hclk
  gap := hc ▸ h.gap
  reads := fun e he =>
    have h := h.reads e he
    ⟨h.vhdr, hc ▸ h.read⟩
  vhdr := fun w hw => hv _ (h.vhdr w hw)

/-- Calls that commit nothing keep the invariant when the transactions they leave are in
order. -/
theorem Inv.frame {s' : State} (h : Inv B s) (hc : s'.chain = s.chain)
    (hm : s'.committed = s.committed) (hclk : s.clk ≤ s'.clk)
    (hv : ∀ o, s.vhdr o = true → s'.vhdr o = true)
    (htx : ∀ t, ∀ tx ∈ s'.thread t, TxOk B s tx ∨ TxOk B s' tx) : Inv B s' where
  order := by
    obtain ⟨ord, ho⟩ := h.order
    exact ⟨ord, hm ▸ ho.perm, ho.sorted, ho.serial, hc ▸ ho.chain⟩
  clk := fun c hcm => (h.clk c (hm ▸ hcm)).trans hclk
  vhdr := by
    intro o ho
    rw [hc]
    refine h.vhdr o ?_
    by_contra hne
    rw [hv o (Bool.eq_true_of_not_eq_false hne)] at ho
    cases ho
  tx := fun t tx ht => (htx t tx ht).elim (fun h => h.frame hc hclk hv) id

theorem Inv.setTx (h : Inv B s) (htx : TxOk B s tx) : Inv B (s.setTx t tx) := by
  refine h.frame rfl rfl le_rfl (fun _ h => h) fun u tx' hu => .inl ?_
  simp only [State.setTx, Function.update_apply] at hu
  split at hu
  · obtain rfl := Option.some_inj.mp hu
    exact htx
  · exact h.tx u tx' hu

theorem Inv.release (h : Inv B s) : Inv B (s.release t tx) := by
  refine h.frame rfl rfl le_rfl (fun _ h => h) fun u tx' hu => .inl ?_
  simp only [State.release, Function.update_apply] at hu
  split at hu
  · cases hu
  · exact h.tx u tx' hu

theorem Inv.tsBegin (h : Inv B s) (hv : ltClock B s.clk v) :
    Inv B ({ s with clk := v }.setTx t ⟨v, .reset .serializability, []⟩) := by
  have hclk : Inv B { s with clk := v } :=
    h.frame rfl rfl hv.1.le (fun _ h => h) fun u tx hu => .inl (h.tx u tx hu)
  refine hclk.setTx ⟨rfl, le_rfl, fun o c hc => .inl ?_, fun e he => absurd he List.not_mem_nil,
    fun w hw => absurd hw List.not_mem_nil⟩
  have hle := h.chain_le hc
  rw [ltClock_iff] at hv ⊢
  exact (Nat.add_le_add_right hle B).trans_lt hv

theorem entryOk_derefEntry (h : Inv B s) (l o : ℕ) : EntryOk B s l (s.derefEntry B l o) := by
  rw [State.derefEntry]
  split
  · refine ⟨?_, ?_⟩
    · rintro _ ⟨⟩
      exact (walk_obj l o _).symm
    · rw [walk_obj]
  · rename_i hv
    refine ⟨fun o ho => (nomatch ho), ?_⟩
    change Ptr.act o = walk B l o (s.chain o)
    rw [h.vhdr o (Bool.eq_false_of_not_eq_true hv)]
    rfl

theorem Inv.deref (h : Inv B s) (htx : TxOk B s tx) (o : ℕ) :
    Inv B (s.setTx t
      { tx with isolation := tx.isolation.readSetAdd (s.derefEntry B tx.localClk o) }) := by
  refine h.setTx ⟨?_, htx.clk, htx.gap, fun e he => ?_, htx.vhdr⟩
  · rw [IsolationInfo.readSetAdd_level]
    exact htx.level
  · rw [IsolationInfo.readSetAdd, htx.level] at he
    rcases List.mem_append.mp he with he | he
    · exact htx.reads e he
    · obtain rfl := List.mem_singleton.mp he
      exact entryOk_derefEntry h tx.localClk o

theorem Inv.tryLock (h : Inv B s) (htx : TxOk B s tx) (w : Locked) :
    Inv B (s.tryLock B t tx w) := by
  have hup : ∀ o, s.vhdr o = true → Function.update s.vhdr w.obj true o = true := by
    intro o ho
    rw [Function.update_apply]
    split
    · rfl
    · exact ho
  have hv : Inv B { s with vhdr := Function.update s.vhdr w.obj true } :=
    h.frame rfl rfl le_rfl hup fun u tx hu => .inl (h.tx u tx hu)
  rw [State.tryLock]
  split
  · refine Inv.setTx (hv.frame rfl rfl le_rfl (fun _ h => h) fun u tx hu => .inl (hv.tx u tx hu))
      ⟨htx.level, htx.clk, htx.gap, fun e he => ⟨(htx.reads e he).vhdr, (htx.reads e he).read⟩,
        fun w' hw => ?_⟩
    rcases List.mem_append.mp hw with hw | hw
    · exact hup _ (htx.vhdr w' hw)
    · obtain rfl := List.mem_singleton.mp hw
      exact Function.update_self ..
  · exact hv

/-- `ts_end` of a transaction that made no new version. -/
theorem Inv.record_read (h : Inv B s) (htx : TxOk B s tx) (hw : tx.writes = []) :
    Inv B (s.record ⟨tx, v⟩) where
  order := by
    obtain ⟨ord, ho⟩ := h.order
    exact ho.insert_read htx hw rfl rfl
  clk := by
    intro c hc
    rcases List.mem_cons.mp hc with rfl | hc
    · exact (if_pos hw).trans_le htx.clk
    · exact h.clk c hc
  vhdr := h.vhdr
  tx := fun t tx ht => (h.tx t tx ht).frame rfl le_rfl fun _ h => h

/-- `ts_end` of a transaction that makes new versions and has read the newest ones. -/
theorem Inv.record_write (h : Inv B s) (htx : TxOk B s tx) (hw : tx.writes ≠ [])
    (hv : ltClock B s.clk v)
    (hr : ∀ e ∈ tx.isolation.readSet, e.copy.version = (s.chain e.copy.obj).head?.map Copy.tx) :
    Inv B ((s.tvlogCommit tx v).record ⟨tx, v⟩) where
  order := by
    obtain ⟨ord, ho⟩ := h.order
    exact ho.append_write hr hw (fun c hc => (h.clk c hc).trans hv.1.le) (fun _ => rfl) rfl
  clk := by
    intro c hc
    rcases List.mem_cons.mp hc with rfl | hc
    · exact (if_neg hw).le
    · exact (h.clk c hc).trans hv.1.le
  vhdr := by
    intro o ho
    have hno : o ∉ tx.writes := by
      intro hm
      obtain ⟨w, hmw, rfl⟩ := List.mem_map.mp hm
      have htrue := htx.vhdr w (List.mem_of_mem_filter hmw)
      exact Bool.false_ne_true (ho.symm.trans htrue)
    exact (if_neg hno).trans (h.vhdr o ho)
  tx := by
    intro u tx' hu
    have hu := h.tx u tx' hu
    -- the new versions are too new for every transaction that runs
    have hnew : tx'.localClk < v := hu.clk.trans_lt hv.1
    refine ⟨hu.level, hu.clk.trans hv.1.le, fun o c hc => ?_, fun e he => ?_, hu.vhdr⟩
    · change c ∈ (if o ∈ tx.writes then _ else _) at hc
      split at hc
      · rcases List.mem_cons.mp hc with rfl | hc
        · exact .inr hnew
        · exact hu.gap o c hc
      · exact hu.gap o c hc
    · refine ⟨(hu.reads e he).vhdr, (hu.reads e he).read.trans ?_⟩
      change _ = walk B _ _ (if e.copy.obj ∈ tx.writes then _ else _)
      split
      · have hno : ¬ ltClock B v tx'.localClk := by
          rw [ltClock_iff]
          omega
        rw [walk, if_neg hno]
      · rfl

theorem Inv.tsEnd {s' : State} (h : Inv B s) (htx : TxOk B s tx)
    (hok : tx.writes ≠ [] → ∀ e ∈ tx.isolation.readSet, ¬ e.Stale)
    (hs : s.tsEnd B t tx v = some s') : Inv B s' := by
  rw [State.tsEnd] at hs
  split at hs
  · rename_i hval
    split at hs
    · rename_i hws
      obtain rfl := Option.some_inj.mp hs
      exact (h.record_read htx (by rw [Tx.writes, hws]; rfl)).release
    · simp only [Option.ite_none_right_eq_some, Option.some_inj] at hs
      obtain ⟨⟨hv, -⟩, rfl⟩ := hs
      by_cases hw : tx.writes = []
      · -- only locks of size zero: nothing but the clock changes
        have hc : (s.tvlogCommit tx v).chain = s.chain := by
          funext o
          simp [State.tvlogCommit, hw]
        have hcommit : Inv B (s.tvlogCommit tx v) :=
          h.frame hc rfl hv.1.le (fun _ h => h) fun u tx hu => .inl (h.tx u tx hu)
        exact (hcommit.record_read (htx.frame hc hv.1.le fun _ h => h) hw).release
      · refine (h.record_write htx hw hv fun e he => ?_).release
        exact (htx.reads e he).version h.vhdr
          (IsolationInfo.validateReadSet_entry hval (by rw [htx.level]; decide) he) (hok hw e he)
  · obtain rfl := Option.some_inj.mp hs
    exact h.release

theorem Inv.initial : Inv B initial where
  order := ⟨[], .nil, .nil, trivial, fun _ => rfl⟩
  clk := fun _ hc => absurd hc List.not_mem_nil
  vhdr := fun _ _ => rfl
  tx := fun _ _ ht => (nomatch ht)

theorem Inv.step {s' : State} {op : Op} (h : Inv B s) (hok : NoStaleWriter s op)
    (hs : step B s op = some s') : Inv B s' := by
  cases op with
  | tsBegin t v =>
    simp only [SerialLevel.step, Option.ite_none_right_eq_some, Option.some_inj] at hs
    obtain ⟨⟨-, hv⟩, rfl⟩ := hs
    exact h.tsBegin hv
  | deref t o =>
    obtain ⟨tx, ht, rfl⟩ := Option.map_eq_some_iff.mp hs
    exact h.deref (h.tx t tx ht) o
  | tryLock t o isConst =>
    obtain ⟨tx, ht, rfl⟩ := Option.map_eq_some_iff.mp hs
    exact h.tryLock (h.tx t tx ht) _
  | tsEnd t v =>
    obtain ⟨tx, ht, hs⟩ := Option.bind_eq_some_iff.mp hs
    exact h.tsEnd (h.tx t tx ht) (hok tx ht) hs
  | abort t =>
    obtain ⟨tx, -, rfl⟩ := Option.map_eq_some_iff.mp hs
    exact h.release

end TimeStone.SerialLevel
