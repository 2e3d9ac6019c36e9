/-
No pointer of a running transaction dangles.

The space of a copy or a checkpoint entry is given back by the log that holds it, in a round
after the one in which a reclamation went past it.  A transaction that runs then began after
that round, and found its pointers where the copy or the entry was no longer (`Safe`).  So a
thread sees the chains as they are, and what `_ts_try_lock` copies is the newest version.

* `Invariant` — the invariant of the runs;
* `Invariant.view_eq` — the pointers of a thread mean what they point to;
* `Invariant.follows` — the memcpy of `_ts_try_lock` copies the newest version;
* `TxOk.frame` — what a thread relies on is kept by the steps of the others.
-/
import TimeStone.WriteRuleMasters

namespace TimeStone.WriteRule

open VersionChain (Quiet Inserts Stamps Entering Thread Pc Plain Leaves)

variable {B : ℕ} {s s' : State} {t u o k j n e i w W r q : ℕ}

/-- The copy to which a memcpy goes. -/
def Dup.target : Dup → Option ℕ
  | .idle => none
  | .loadAct k | .copyAct k _ | .copyOld k _ => some k

/-- The thread has the copy in its write set, or is about to. -/
def Mine (c : VersionChain.State) (t k : ℕ) : Prop :=
  k ∈ (c.threads t).held ∨ (c.threads t).pc.own = some k

/-- The thread may follow a pointer to the version: no reclamation went past it before the
round in which the transaction began. -/
structure Safe (s : State) (t k : ℕ) : Prop where
  inserted : (s.chain.copies k).inserted = true
  kept : (s.slot k).freed = false
  passed : ∀ r, (s.slot k).passed = some r → s.began t ≤ r

/-- The thread may follow a pointer to the checkpoint entry. -/
structure SafeEntry (s : State) (t e : ℕ) : Prop where
  lt : e < s.numEntries
  kept : (s.entries e).freed = false
  passed : ∀ r, (s.entries e).passed = some r → s.began t ≤ r

/-- The version `j` is the newest one of the object of `k`, and is in the snapshot. -/
structure Newest (B : ℕ) (s : State) (t k j : ℕ) : Prop where
  obj : (s.chain.copies j).obj = (s.chain.copies k).obj
  before : (s.chain.copies j).wrtClk + B < (s.chain.threads t).localClk
  le : ∀ i, (s.chain.copies i).inserted = true → (s.chain.copies i).obj = (s.chain.copies k).obj →
    (s.chain.copies i).wrtClk ≤ (s.chain.copies j).wrtClk

/-- The memcpy of `_ts_try_lock`, from the newest version. -/
def DupOk (B : ℕ) (s : State) (t : ℕ) : Dup → Prop
  | .idle => True
  | .loadAct k => k ∈ (s.chain.threads t).copies ∧ s.chain.pCopy (s.chain.copies k).obj = none
  | .copyAct k m => k ∈ (s.chain.threads t).copies ∧ s.chain.pCopy (s.chain.copies k).obj = none ∧
      s.ver (s.chain.copies k).obj m = s.curVer (s.chain.copies k).obj ∧
      ∀ e, m = .entry e → SafeEntry s t e
  | .copyOld k j => k ∈ (s.chain.threads t).copies ∧ Safe s t j ∧ Newest B s t k j

/-- One thread: its pointers, its own copies, and its memcpy. -/
structure TxOk (B : ℕ) (s : State) (t : ℕ) : Prop where
  ptr : s.Active t → ∀ j, (s.chain.threads t).pc.ptr = some j → Safe s t j
  link : s.Active t → ∀ k ∈ (s.chain.threads t).held, (s.chain.copies k).inserted = true →
    ∀ j, (s.chain.copies k).pCopy = some j → Safe s t j
  own : ∀ k, (s.chain.threads t).pc.own = some k → s.copied k = none ∧ (s.slot k).freed = false
  held : ∀ k ∈ (s.chain.threads t).held, (s.slot k).freed = false ∧
    ((s.dup t).target = some k ∨
      ∃ x, s.copied k = some x ∧ x.localClk = (s.chain.threads t).localClk)
  dup : DupOk B s t (s.dup t)
  inTx : s.dup t ≠ .idle ∨ s.aborting t = true → (s.chain.threads t).pc = .inTx
  aborting : s.aborting t = true → s.dup t = .idle

/-- The QP thread and the running transactions: those of an earlier round are waited for. -/
structure Qp (B : ℕ) (s : State) : Prop where
  lt : s.lastClk < maxVersion
  clk : s.qpClk ≤ s.lastClk
  qp0 : s.qp0 ≤ correctQpClock B s.qpClk
  active : ∀ t, s.Active t → t ∈ s.threads ∧ s.began t ≤ s.round ∧
    s.qp0 ≤ (s.chain.threads t).localClk
  current : ∀ t, s.Active t → s.began t = s.round → s.qpClk ≤ (s.chain.threads t).localClk + B
  waiting : s.phase = .wait → ∀ t, s.Active t → t ∈ s.waiting ∨ s.began t = s.round
  done : s.phase ≠ .clock → s.phase ≠ .wait → ∀ t, s.Active t → s.began t = s.round

/-- What the clocks of the transactions depend on. -/
structure SameQp (s s' : State) : Prop where
  pcs : s'.chain.threads = s.chain.threads
  aborting : s'.aborting = s.aborting
  began : s'.began = s.began
  threads : s'.threads = s.threads
  lastClk : s'.lastClk = s.lastClk
  phase : s'.phase = s.phase
  round : s'.round = s.round
  qpClk : s'.qpClk = s.qpClk
  qp0 : s'.qp0 = s.qp0
  waiting : s'.waiting = s.waiting

theorem SameQp.active (he : SameQp s s') (t : ℕ) : s'.Active t ↔ s.Active t := by
  unfold State.Active
  rw [he.pcs, he.aborting]

theorem Qp.same (h : Qp B s) (he : SameQp s s') : Qp B s' := by
  obtain ⟨h1, h2, h3, h4, h5, h6, h7⟩ := h
  constructor
  · rw [he.lastClk]
    exact h1
  · rw [he.lastClk, he.qpClk]
    exact h2
  · rw [he.qp0, he.qpClk]
    exact h3
  · intro t ht
    rw [he.active] at ht
    rw [he.threads, he.began, he.round, he.qp0, he.pcs]
    exact h4 t ht
  · intro t ht
    rw [he.active] at ht
    rw [he.began, he.round, he.qpClk, he.pcs]
    exact h5 t ht
  · intro hw t ht
    rw [he.phase] at hw
    rw [he.active] at ht
    rw [he.waiting, he.began, he.round]
    exact h6 hw t ht
  · intro h8 h9 t ht
    rw [he.phase] at h8 h9
    rw [he.active] at ht
    rw [he.began, he.round]
    exact h7 h8 h9 t ht

/-- A reclamation phase. -/
def Reclaiming (s : State) : Prop := ∃ m, s.phase = .reclaim m

/-- The logs are reclaimed in the reclamation phase of the round. -/
structure Rounds (s : State) : Prop where
  tv : ∀ t, s.tv t ≠ .idle → t ∈ s.threads ∧ Reclaiming s ∧ s.tvRound t = s.round
  ck : ∀ t, s.ck t ≠ .idle → t ∈ s.threads ∧ Reclaiming s ∧ s.ckRound t = s.round
  tvLe : ∀ t, s.tvRound t ≤ s.round
  ckLe : ∀ t, s.ckRound t ≤ s.round

/-- The space of the transient version logs. -/
structure Slots (B : ℕ) (s : State) : Prop where
  mem : ∀ k < s.chain.numCopies, (s.slot k).freed = false → s.mem (s.slot k).addr = k
  passed : ∀ k r, (s.slot k).passed = some r → k < s.chain.numCopies ∧
    (s.chain.copies k).wrtClk + B < s.qp0 ∧ s.chain.pCopy (s.chain.copies k).obj ≠ some k ∧
    r ≤ s.tvRound (s.owner k)
  behind : ∀ k, (s.slot k).behind = true →
    ∃ r, (s.slot k).passed = some r ∧ r < s.tvRound (s.owner k)
  freed : ∀ k, (s.slot k).freed = true → (s.chain.copies k).inserted = true →
    ∃ r, (s.slot k).passed = some r ∧ r < s.tvRound (s.owner k)

/-- The space of the checkpoint logs. -/
structure Entries (s : State) : Prop where
  passed : ∀ e r, (s.entries e).passed = some r → e < s.numEntries ∧
    ((s.entries e).tombstone = false → s.npCurAct (s.entries e).obj ≠ .entry e) ∧
    r ≤ s.ckRound (s.entries e).log
  behind : ∀ e, (s.entries e).behind = true →
    ∃ r, (s.entries e).passed = some r ∧ r < s.ckRound (s.entries e).log
  freed : ∀ e, (s.entries e).freed = true → ∃ r, (s.entries e).passed = some r
  log : ∀ t e, s.ck t = .writeback e ∨ s.ck t = .store e → (s.entries e).log = t

structure Invariant (B : ℕ) (s : State) : Prop where
  chain : VersionChain.Inv B s.chain
  plain : Plain s.chain
  history : History B s.chain s.copied
  masters : Masters B s
  detaches : Detaches B s
  writes : Writes s
  qp : Qp B s
  rounds : Rounds s
  tombs : Tombs B s
  slots : Slots B s
  entries : Entries s
  tx : ∀ t, TxOk B s t
  flight : ∀ k < s.chain.numCopies, (s.chain.copies k).wrtClk = maxVersion →
    (s.slot k).freed = false → ∃ t, Mine s.chain t k
  fresh : ∀ k, s.chain.numCopies ≤ k → s.copied k = none

/-! ### Pointers -/

theorem Invariant.lt (h : Invariant B s) (hj : (s.chain.copies j).inserted = true) :
    j < s.chain.numCopies :=
  (h.chain.chains.alloc j hj).1

theorem Invariant.look_eq (h : Invariant B s) (hj : Safe s t j) : s.look j = j :=
  h.slots.mem j (h.lt hj.inserted) hj.kept

/-- A version that is in its chain may be followed by every running transaction. -/
theorem Invariant.safe_head (h : Invariant B s) (hp : s.chain.pCopy o = some k) : Safe s t k := by
  obtain ⟨h1, h2, -⟩ := h.chain.chains.head o k hp
  have hnot : ∀ r, (s.slot k).passed ≠ some r := by
    intro r hr
    have := (h.slots.passed k r hr).2.2.1
    rw [h2] at this
    exact this hp
  refine ⟨h1, ?_, fun r hr => absurd hr (hnot r)⟩
  by_contra hf
  obtain ⟨r, hr, -⟩ := h.slots.freed k (by simpa using hf) h1
  exact hnot r hr

/-- A transaction reads no master of an object that has a tombstone. -/
theorem Invariant.not_tombstoned (h : Invariant B s) (hk : k ∈ (s.chain.threads t).held) :
    ¬ s.Tombstoned (s.chain.copies k).obj :=
  h.tombs.not_tombstoned h.chain h.masters.le hk

/-- The current master may be followed by every running transaction. -/
theorem Invariant.safe_cur (h : Invariant B s) (hb : ¬ s.Tombstoned o)
    (hc : s.npCurAct o = .entry e) : SafeEntry s t e := by
  obtain ⟨h1, h2⟩ := h.masters.cur o e hc
  have htomb : (s.entries e).tombstone = false := by
    by_contra ht
    exact hb ⟨e, h1, h2, by simpa using ht⟩
  have hnot : ∀ r, (s.entries e).passed ≠ some r := by
    intro r hr
    have := (h.entries.passed e r hr).2.1 htomb
    rw [h2] at this
    exact this hc
  refine ⟨h1, ?_, fun r hr => absurd hr (hnot r)⟩
  by_contra hf
  obtain ⟨r, hr⟩ := h.entries.freed e (by simpa using hf)
  exact hnot r hr

theorem resolve_eq {f : ℕ → ℕ} {pc : Pc} (h : ∀ j, pc.ptr = some j → f j = j) :
    pc.resolve f = pc := by
  have hmap : ∀ {old : Option ℕ}, (∀ j, old = some j → f j = j) → old.map f = old := by
    intro old ho
    cases old with
    | none => rfl
    | some j => exact congrArg some (ho j rfl)
  cases pc with
  | chkWrtClk o kind k => exact congrArg (Pc.chkWrtClk o kind) (h k rfl)
  | chkPending o kind k => exact congrArg (Pc.chkPending o kind) (h k rfl)
  | chkWait o kind k => exact congrArg (Pc.chkWait o kind) (h k rfl)
  | tryTest o kind old => exact congrArg (Pc.tryTest o kind) (hmap h)
  | tryCas o old k => exact congrArg (Pc.tryCas o · k) (hmap h)
  | recheck o old k => exact congrArg (Pc.recheck o · k) (hmap h)
  | moveInit k old ks => exact congrArg (Pc.moveInit k · ks) (hmap h)
  | moveCas k old ks => exact congrArg (Pc.moveCas k · ks) (hmap h)
  | _ => rfl

/-- A thread without a running transaction has no pointers. -/
theorem TxOk.not_active (h : TxOk B s t) (ha : ¬ s.Active t) :
    (s.chain.threads t).pc = .outside ∨ (s.chain.threads t).pc = .inTx := by
  by_cases hpc : (s.chain.threads t).pc = .outside
  · exact Or.inl hpc
  · right
    refine h.inTx (Or.inr ?_)
    by_contra hab
    exact ha ⟨hpc, by simpa using hab⟩

/-- The thread is between the steps of a call. -/
theorem TxOk.of_busy (h : TxOk B s t) (hout : (s.chain.threads t).pc ≠ .outside)
    (hin : (s.chain.threads t).pc ≠ .inTx) : s.Active t ∧ s.dup t = .idle := by
  constructor
  · by_contra ha
    rcases h.not_active ha with hpc | hpc
    · exact hout hpc
    · exact hin hpc
  · by_contra hd
    exact hin (h.inTx (Or.inl hd))

theorem TxOk.active_of_ptr (h : TxOk B s t) (hp : (s.chain.threads t).pc.ptr = some j) :
    s.Active t := by
  by_contra ha
  rcases h.not_active ha with hpc | hpc <;> rw [hpc] at hp <;> cases hp

/-- The memcpy goes on inside a transaction. -/
theorem TxOk.of_dup (h : TxOk B s t) (hd : s.dup t ≠ .idle) : s.Active t ∧
    (s.chain.threads t).pc = .inTx ∧ (s.chain.threads t).held = (s.chain.threads t).copies := by
  have hpc := h.inTx (Or.inl hd)
  refine ⟨⟨by rw [hpc]; exact nofun, ?_⟩, hpc,
    VersionChain.held_eq (by rw [hpc]; exact nofun)⟩
  by_contra hab
  exact hd (h.aborting (by simpa using hab))

/-- The pointers of a thread mean what they point to. -/
theorem Invariant.view_eq (h : Invariant B s) (t : ℕ) : s.view t = s.chain := by
  have ht := h.tx t
  have hptr : ∀ j, (s.chain.threads t).pc.ptr = some j → s.look j = j :=
    fun j hj => h.look_eq (ht.ptr (ht.active_of_ptr hj) j hj)
  unfold State.view
  split
  · rename_i W k ks hpc
    have hact : s.Active t := by
      by_contra ha
      rcases ht.not_active ha with hp | hp <;> rw [hpc] at hp <;> cases hp
    have hk := (h.chain.stamps_held hpc).1
    have hmap : (s.chain.copies k).pCopy.map s.look = (s.chain.copies k).pCopy := by
      have hp := (h.chain.threads t).pc
      rw [hpc] at hp
      rcases hp.2.2.1 k (List.mem_cons_self ..) with hins | hnone
      · cases hl : (s.chain.copies k).pCopy with
        | none => rfl
        | some j => exact congrArg some (h.look_eq (ht.link hact k hk hins j hl))
      · rw [hnone]
        rfl
    rw [hmap]
    show { s.chain with copies := Function.update s.chain.copies k (s.chain.copies k) } = s.chain
    rw [Function.update_eq_self]
  · rw [resolve_eq hptr]
    show { s.chain with threads := Function.update s.chain.threads t (s.chain.threads t) } = s.chain
    rw [Function.update_eq_self]

/-! ### The memcpy -/

theorem Newest.follows (h : Invariant B s) (hk : k ∈ (s.chain.threads t).held)
    (hj : (s.chain.copies j).inserted = true) (hn : Newest B s t k j) :
    Follows B s.chain k ⟨some j, (s.chain.threads t).localClk⟩ := by
  constructor
  · rw [held_wrtClk h.chain hk]
    exact (h.chain.threads t).localClk
  · rintro n hn'
    obtain rfl := Option.some_inj.mp hn'
    exact ⟨hj, hn.obj, hn.before⟩
  · exact fun i hi hio _ => Or.inr ⟨j, rfl, hn.le i hi hio⟩

/-- When no version is in the chain, the current master holds the newest one. -/
theorem Invariant.follows_cur (h : Invariant B s) (hact : s.Active t)
    (hk : k ∈ (s.chain.threads t).held) (hp : s.chain.pCopy (s.chain.copies k).obj = none) :
    Follows B s.chain k ⟨s.curVer (s.chain.copies k).obj, (s.chain.threads t).localClk⟩ := by
  constructor
  · rw [held_wrtClk h.chain hk]
    exact (h.chain.threads t).localClk
  · intro n hn
    have hs := h.masters.settled_cur (h.not_tombstoned hk) hn
    have := (h.qp.active t hact).2.2
    have := hs.clk
    exact ⟨hs.inserted, hs.obj, by dsimp only; omega⟩
  · intro i hi hio _
    obtain ⟨n, hn, hle⟩ := h.masters.newest _ (h.not_tombstoned hk) hp i hi hio
    exact Or.inr ⟨n, hn, hle⟩

/-- While the chain of an object is empty, none of its versions is enqueued. -/
theorem Invariant.not_enq (h : Invariant B s) (hb : ¬ s.Tombstoned o)
    (hp : s.chain.pCopy o = none) (hk : Enqueuing B s t k) : (s.chain.copies k).obj ≠ o := by
  intro hko
  obtain ⟨n, hn, hle⟩ := h.masters.newest o hb hp k hk.inserted hko
  have hs := h.masters.settled_cur hb hn
  rw [← hko] at hn hb
  have hle' := h.masters.cur_le hb hk.newest hn
  have hne : n ≠ k := by
    rintro rfl
    have hf := hk.fresh
    rw [hs.detached] at hf
    cases hf
  exact h.history.clk_ne hk.inserted hs.inserted (hs.obj.trans hko.symm) hne
    (Nat.le_antisymm hle' hle)

/-! ### What the steps leave to a thread -/

/-- What the thread `u` relies on. -/
structure TxFrame (s s' : State) (u : ℕ) : Prop where
  thread : s'.chain.threads u = s.chain.threads u
  dup : s'.dup u = s.dup u
  aborting : s'.aborting u = s.aborting u
  safe : ∀ j, s.Active u → Safe s u j → Safe s' u j
  entry : ∀ e, s.Active u → SafeEntry s u e → SafeEntry s' u e
  mine : ∀ k, Mine s.chain u k →
    s'.copied k = s.copied k ∧ ((s.slot k).freed = false → (s'.slot k).freed = false)
  copy : ∀ k ∈ (s.chain.threads u).held,
    (s'.chain.copies k).inserted = (s.chain.copies k).inserted ∧
    (s'.chain.copies k).obj = (s.chain.copies k).obj ∧
      ((s.chain.copies k).inserted = true → (s'.chain.copies k).pCopy = (s.chain.copies k).pCopy)
  head : ∀ k ∈ (s.chain.threads u).held, s.chain.pCopy (s.chain.copies k).obj = none →
    s'.chain.pCopy (s.chain.copies k).obj = none
  obj : ∀ j, (s.chain.copies j).inserted = true →
    (s'.chain.copies j).obj = (s.chain.copies j).obj
  versions : ∀ k ∈ (s.chain.threads u).held, ∀ i, (s'.chain.copies i).inserted = true →
    (s'.chain.copies i).obj = (s.chain.copies k).obj →
      (s.chain.copies i).inserted = true ∧ (s.chain.copies i).obj = (s.chain.copies k).obj ∧
        (s'.chain.copies i).wrtClk = (s.chain.copies i).wrtClk
  ver : ∀ k ∈ (s.chain.threads u).held, s.chain.pCopy (s.chain.copies k).obj = none →
    ∀ m, s.ver (s.chain.copies k).obj m = s.curVer (s.chain.copies k).obj →
      (∀ e, m = .entry e → e < s.numEntries) →
        s'.ver (s.chain.copies k).obj m = s'.curVer (s.chain.copies k).obj

theorem TxFrame.active (hf : TxFrame s s' u) : s'.Active u ↔ s.Active u := by
  unfold State.Active
  rw [hf.thread, hf.aborting]

theorem Newest.frame (h : Newest B s u k j) (hf : TxFrame s s' u)
    (hk : k ∈ (s.chain.threads u).held) (hj : (s.chain.copies j).inserted = true)
    (hj' : (s'.chain.copies j).inserted = true) : Newest B s' u k j := by
  have hobj := (hf.copy k hk).2.1
  have hclk := (hf.versions k hk j hj' ((hf.obj j hj).trans h.obj)).2.2
  constructor
  · rw [hf.obj j hj, hobj]
    exact h.obj
  · rw [hclk, hf.thread]
    exact h.before
  · intro i hi hio
    rw [hobj] at hio
    obtain ⟨h1, h2, h3⟩ := hf.versions k hk i hi hio
    rw [h3, hclk]
    exact h.le i h1 h2

theorem TxOk.frame (h : TxOk B s u) (hf : TxFrame s s' u) : TxOk B s' u := by
  constructor
  · intro ha j hj
    rw [hf.active] at ha
    rw [hf.thread] at hj
    exact hf.safe j ha (h.ptr ha j hj)
  · intro ha k hk hins j hj
    rw [hf.active] at ha
    rw [hf.thread] at hk
    obtain ⟨h1, -, h2⟩ := hf.copy k hk
    rw [h1] at hins
    rw [h2 hins] at hj
    exact hf.safe j ha (h.link ha k hk hins j hj)
  · intro k hk
    rw [hf.thread] at hk
    obtain ⟨h1, h2⟩ := h.own k hk
    obtain ⟨h3, h4⟩ := hf.mine k (Or.inr hk)
    exact ⟨h3.trans h1, h4 h2⟩
  · intro k hk
    rw [hf.thread] at hk
    obtain ⟨h1, h2⟩ := h.held k hk
    obtain ⟨h3, h4⟩ := hf.mine k (Or.inl hk)
    rw [hf.dup, hf.thread, h3]
    exact ⟨h4 h1, h2⟩
  · rw [hf.dup]
    have hd := h.dup
    cases hdup : s.dup u with
    | idle => trivial
    | loadAct k =>
      obtain ⟨-, -, hheld⟩ := h.of_dup (by rw [hdup]; exact nofun)
      rw [hdup] at hd
      have hk : k ∈ (s.chain.threads u).held := hheld ▸ hd.1
      refine ⟨by rw [hf.thread]; exact hd.1, ?_⟩
      rw [(hf.copy k hk).2.1]
      exact hf.head k hk hd.2
    -- the master that is being copied from is not given back while the transaction runs
    | copyAct k m =>
      obtain ⟨hact, -, hheld⟩ := h.of_dup (by rw [hdup]; exact nofun)
      rw [hdup] at hd
      obtain ⟨h1, h2, h3, h4⟩ := hd
      have hk : k ∈ (s.chain.threads u).held := hheld ▸ h1
      refine ⟨by rw [hf.thread]; exact h1, ?_, ?_, fun e he => hf.entry e hact (h4 e he)⟩
      · rw [(hf.copy k hk).2.1]
        exact hf.head k hk h2
      · rw [(hf.copy k hk).2.1]
        exact hf.ver k hk h2 m h3 fun e he => (h4 e he).lt
    | copyOld k j =>
      obtain ⟨hact, -, hheld⟩ := h.of_dup (by rw [hdup]; exact nofun)
      rw [hdup] at hd
      obtain ⟨h1, h2, h3⟩ := hd
      have hk : k ∈ (s.chain.threads u).held := hheld ▸ h1
      have hsafe := hf.safe j hact h2
      exact ⟨by rw [hf.thread]; exact h1, hsafe, h3.frame hf hk h2.inserted hsafe.inserted⟩
  · rw [hf.dup, hf.aborting, hf.thread]
    exact h.inTx
  · rw [hf.dup, hf.aborting]
    exact h.aborting

/-! ### Steps of the QP thread -/

/-- The versions, the space, the masters and the transactions. -/
structure SameMain (s s' : State) : Prop where
  chain : s'.chain = s.chain
  dup : s'.dup = s.dup
  aborting : s'.aborting = s.aborting
  began : s'.began = s.began
  copied : s'.copied = s.copied
  slot : s'.slot = s.slot
  mem : s'.mem = s.mem
  npCurAct : s'.npCurAct = s.npCurAct
  npOrgAct : s'.npOrgAct = s.npOrgAct
  entries : s'.entries = s.entries
  numEntries : s'.numEntries = s.numEntries
  tv : s'.tv = s.tv
  tvRound : s'.tvRound = s.tvRound
  ck : s'.ck = s.ck
  ckRound : s'.ckRound = s.ckRound

theorem SameMain.ver (hm : SameMain s s') (o : ℕ) (m : Master) : s'.ver o m = s.ver o m := by
  cases m with
  | org => exact congrFun hm.npOrgAct o
  | entry e => exact congrArg (fun x => some (x e).ver) hm.entries

theorem SameMain.curVer (hm : SameMain s s') (o : ℕ) : s'.curVer o = s.curVer o := by
  unfold State.curVer
  rw [hm.npCurAct, hm.ver]

theorem SameMain.owner (hm : SameMain s s') (k : ℕ) : s'.owner k = s.owner k := by
  unfold State.owner
  rw [hm.chain]

theorem SameMain.frame (hm : SameMain s s') : TxFrame s s' u where
  thread := by rw [hm.chain]
  dup := by rw [hm.dup]
  aborting := by rw [hm.aborting]
  safe := by
    rintro j - ⟨h1, h2, h3⟩
    constructor
    · rw [hm.chain]
      exact h1
    · rw [hm.slot]
      exact h2
    · rw [hm.slot, hm.began]
      exact h3
  entry := by
    rintro e - ⟨h1, h2, h3⟩
    constructor
    · rw [hm.numEntries]
      exact h1
    · rw [hm.entries]
      exact h2
    · rw [hm.entries, hm.began]
      exact h3
  mine := fun k _ => ⟨by rw [hm.copied], by rw [hm.slot]; exact fun hf => hf⟩
  copy := by
    rw [hm.chain]
    exact fun _ _ => ⟨rfl, rfl, fun _ => rfl⟩
  head := by
    rw [hm.chain]
    exact fun _ _ hp => hp
  obj := by
    rw [hm.chain]
    exact fun _ _ => rfl
  versions := by
    rw [hm.chain]
    exact fun _ _ _ hi hio => ⟨hi, hio, rfl⟩
  ver := by
    intro k _ _ m hv _
    rw [hm.ver, hm.curVer]
    exact hv

/-- The records of what was passed stay as they are. -/
theorem Slots.same (h : Slots B s) (hchain : s'.chain = s.chain) (hmem : s'.mem = s.mem)
    (hqp : s.qp0 ≤ s'.qp0) (howner : ∀ k, s'.owner k = s.owner k) (hround : s'.tvRound = s.tvRound)
    (hslot : ∀ j, (s'.slot j).addr = (s.slot j).addr ∧ (s'.slot j).passed = (s.slot j).passed ∧
      (s'.slot j).behind = (s.slot j).behind ∧ (s'.slot j).freed = (s.slot j).freed) :
    Slots B s' := by
  constructor
  · intro j hj hf
    rw [(hslot j).2.2.2] at hf
    rw [(hslot j).1, hmem]
    exact h.mem j (hchain ▸ hj) hf
  · intro j r hr
    rw [(hslot j).2.1] at hr
    rw [hchain, howner, hround]
    obtain ⟨h1, h2, h3, h4⟩ := h.passed j r hr
    exact ⟨h1, Nat.lt_of_lt_of_le h2 hqp, h3, h4⟩
  · intro j hb
    rw [(hslot j).2.2.1] at hb
    rw [(hslot j).2.1, howner, hround]
    exact h.behind j hb
  · intro j hf hi
    rw [(hslot j).2.2.2] at hf
    rw [hchain] at hi
    rw [(hslot j).2.1, howner, hround]
    exact h.freed j hf hi

/-- Steps that leave all this alone. -/
theorem Invariant.of_main (h : Invariant B s) (hm : SameMain s s') (hq : s.qp0 ≤ s'.qp0)
    (hmasters : Masters B s') (hdetaches : Detaches B s') (hqp : Qp B s') (hrounds : Rounds s') :
    Invariant B s' := by
  constructor
  · rw [hm.chain]
    exact h.chain
  · rw [hm.chain]
    exact h.plain
  · rw [hm.chain, hm.copied]
    exact h.history
  · exact hmasters
  · exact hdetaches
  · obtain ⟨h1, h2⟩ := h.writes
    constructor
    · rw [hm.ck, hm.numEntries]
      exact h1
    · rw [hm.ck, hm.npCurAct, hm.npOrgAct, hm.entries]
      exact h2
  · exact hqp
  · exact hrounds
  · refine h.tombs.keep hm.chain hq hm.tv fun e he ht => ?_
    rw [hm.numEntries] at he
    rw [hm.entries] at ht ⊢
    exact ⟨he, rfl, ht⟩
  · exact h.slots.same hm.chain hm.mem hq hm.owner hm.tvRound fun j => by
      rw [hm.slot]
      exact ⟨rfl, rfl, rfl, rfl⟩
  · obtain ⟨h1, h2, h3, h4⟩ := h.entries
    constructor
    · rw [hm.entries, hm.numEntries, hm.npCurAct, hm.ckRound]
      exact h1
    · rw [hm.entries, hm.ckRound]
      exact h2
    · rw [hm.entries]
      exact h3
    · rw [hm.entries, hm.ck]
      exact h4
  · exact fun u => (h.tx u).frame hm.frame
  · rw [hm.chain, hm.slot]
    exact h.flight
  · rw [hm.chain, hm.copied]
    exact h.fresh

theorem Invariant.of_same (h : Invariant B s) (hm : SameMain s s') (hqp0 : s'.qp0 = s.qp0)
    (hqp : Qp B s') (hrounds : Rounds s') : Invariant B s' := by
  have hv : SameMasters s s' := ⟨.of_chain hm.chain hqp0 fun _ => by rw [hm.slot], hm.npCurAct,
    hm.npOrgAct, fun _ => by rw [hm.entries], fun _ => by rw [hm.entries], hm.numEntries,
    fun _ => by rw [hm.entries]; exact fun ht => ht⟩
  exact h.of_main hm (Nat.le_of_eq hqp0.symm) (h.masters.same hv)
    (h.detaches.same hv.toSameVersions (fun _ => hv.tombstoned) (fun o _ => hm.curVer o) h.masters
      hm.tv) hqp hrounds

end TimeStone.WriteRule
