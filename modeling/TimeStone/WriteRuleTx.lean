/-
The steps of the transactions keep the invariant.

`TxStep` says what a step of one thread may change: its own copies and their space, its own
locks, and the versions as `Evolves` and `History` allow.  The other threads rely on none of it
(`Leaves`), and the reclamations only on the versions below the clock.

* `Invariant.txStep` — a step of a transaction keeps the invariant;
* `Invariant.lockStep`, `Invariant.dupStep`, `Invariant.commitStep`, `Invariant.abortStep` — the
  steps of `_ts_try_lock`, `tvlog_commit` and `ws_unlock_abort`.
-/
import TimeStone.WriteRuleSpace

namespace TimeStone.WriteRule

open VersionChain (Quiet Inserts Stamps Entering Thread Pc Plain Leaves Forward FreeLocked)

variable {B : ℕ} {s s' : State} {c' : VersionChain.State} {t u o k j n e i w W r q v : ℕ}

/-- A copy is in the log of one thread. -/
theorem Mine.alloc {c : VersionChain.State} (hk : Mine c t k) (h : VersionChain.Inv B c) :
    k < c.numCopies ∧ (c.wss (c.copies k).ws).thread = t ∧ (c.copies k).wrtClk = maxVersion := by
  have ht := h.threads t
  rcases hk with hk | hk
  · have hh := ht.holds k hk
    exact ⟨hh.alloc, (ht.ws _ hh.ws).2, held_wrtClk h hk⟩
  · have hp := ht.pc
    cases hpc : (c.threads t).pc with
    | tryCas o old j =>
      rw [hpc] at hk hp
      obtain rfl := Option.some_inj.mp hk
      exact ⟨hp.2.2.2.1, (ht.ws _ hp.2.2.2.2.1).2, Classical.not_not.mp hp.2.2.2.2.2.1⟩
    | recheck o old j =>
      rw [hpc] at hk hp
      obtain rfl := Option.some_inj.mp hk
      have hh := hp.2.2.2.1
      exact ⟨hh.alloc, (ht.ws _ hh.ws).2, Classical.not_not.mp hh.unstamped⟩
    | _ =>
      rw [hpc] at hk
      cases hk

/-- The QP thread, the masters and the reclamations. -/
structure SameRest (s s' : State) : Prop where
  threads : s'.threads = s.threads
  npCurAct : s'.npCurAct = s.npCurAct
  npOrgAct : s'.npOrgAct = s.npOrgAct
  entries : s'.entries = s.entries
  numEntries : s'.numEntries = s.numEntries
  phase : s'.phase = s.phase
  round : s'.round = s.round
  qpClk : s'.qpClk = s.qpClk
  qp0 : s'.qp0 = s.qp0
  qp1 : s'.qp1 = s.qp1
  qp2 : s'.qp2 = s.qp2
  lastCkpt : s'.lastCkpt = s.lastCkpt
  tv : s'.tv = s.tv
  tvRound : s'.tvRound = s.tvRound
  ck : s'.ck = s.ck
  ckRound : s'.ckRound = s.ckRound

/-- What a step of the thread `t` does to the space of the copies: it gives back its own, or
allocates new ones. -/
structure Space (s s' : State) (t : ℕ) : Prop where
  num : s.chain.numCopies ≤ s'.chain.numCopies
  slot : ∀ k < s.chain.numCopies, s'.slot k = s.slot k ∨
    s'.slot k = { s.slot k with freed := true } ∧ Mine s.chain t k ∧
      (s'.chain.copies k).inserted = false
  new : ∀ k, s.chain.numCopies ≤ k → s'.slot k = s.slot k ∧ s'.chain.numCopies ≤ k ∨
    (∃ a f, s'.slot k = ⟨a, false, none, false, f, false⟩) ∧
      (Mine s'.chain t k ∨ (s'.slot k).freed = true)
  mem : ∀ k < s'.chain.numCopies, (s'.slot k).freed = false → s'.mem (s'.slot k).addr = k

/-- The transaction of the thread goes on. -/
structure SameTx (s s' : State) (u : ℕ) : Prop where
  active : s.Active u
  began : s'.began u = s.began u
  localClk : (s'.chain.threads u).localClk = (s.chain.threads u).localClk

/-- A transaction of the thread begins. -/
structure NewTx (B : ℕ) (s s' : State) (u : ℕ) : Prop where
  inactive : ¬ s.Active u
  mem : u ∈ s.threads
  began : s'.began u = s.round
  after : s.lastClk ≤ (s'.chain.threads u).localClk + B
  before : (s'.chain.threads u).localClk ≤ s'.lastClk

/-- A step of the transaction of the thread `t`. -/
structure TxStep (B : ℕ) (s s' : State) (t : ℕ) : Prop extends Space s s' t where
  rest : SameRest s s'
  chain : VersionChain.Inv B s'.chain
  plain : Plain s'.chain
  frees : FreeLocked s'.chain
  history : History B s'.chain s'.copied
  leaves : Leaves s.chain s'.chain t
  evolves : Evolves s.qp0 s.chain s'.chain
  owner : ∀ k < s.chain.numCopies, s'.owner k = s.owner k
  inserted : ∀ k, (s'.chain.copies k).inserted = true →
    (s.chain.copies k).inserted = true ∨ k ∈ (s.chain.threads t).held
  stamp : ∀ k < s.chain.numCopies, (s.chain.copies k).wrtClk ≠ maxVersion →
    (s'.chain.copies k).wrtClk = (s.chain.copies k).wrtClk
  kinds : ∀ k < s.chain.numCopies, (s.chain.copies k).wrtClk ≠ maxVersion →
    (s'.chain.copies k).kind = (s.chain.copies k).kind ∧
      (s'.chain.copies k).obj = (s.chain.copies k).obj
  copied : ∀ k, s'.copied k = s.copied k ∨ k ∈ (s.chain.threads t).held
  keep : ∀ k, Mine s.chain t k → Mine s'.chain t k ∨
    (s'.chain.copies k).wrtClk ≠ maxVersion ∨ (s'.slot k).freed = true
  dup : ∀ u, u ≠ t → s'.dup u = s.dup u
  aborting : ∀ u, u ≠ t → s'.aborting u = s.aborting u
  began : ∀ u, u ≠ t → s'.began u = s.began u
  clk : s.lastClk ≤ s'.lastClk ∧ s'.lastClk < maxVersion
  active : s'.Active t → SameTx s s' t ∨ NewTx B s s' t
  waiting : ∀ u, s'.Active u → u ∈ s.waiting → u ∈ s'.waiting
  tx : TxOk B s' t

/-- The other threads go on as they did. -/
theorem TxStep.active_of (ht : TxStep B s s' t) (hu : u ≠ t) (ha : s'.Active u) :
    SameTx s s' u := by
  unfold State.Active at ha
  rw [ht.leaves.threads u hu, ht.aborting u hu] at ha
  exact ⟨ha, ht.began u hu, by rw [ht.leaves.threads u hu]⟩

theorem TxStep.tx_of (ht : TxStep B s s' t) (ha : s'.Active u) :
    SameTx s s' u ∨ NewTx B s s' u := by
  by_cases hut : u = t
  · exact hut ▸ ht.active (hut ▸ ha)
  · exact Or.inl (ht.active_of hut ha)

section

variable (h : Invariant B s) (ht : TxStep B s s' t)

include h ht

/-- The space of a version is left alone. -/
theorem TxStep.slot_eq (hk : (s.chain.copies k).inserted = true) : s'.slot k = s.slot k := by
  rcases ht.slot k (h.lt hk) with h1 | ⟨-, -, h1⟩
  · exact h1
  · rw [(ht.evolves.old k hk).1] at h1
    cases h1

theorem TxStep.passed (hr : (s'.slot k).passed = some r) :
    k < s.chain.numCopies ∧ (s.slot k).passed = some r ∧
      (s'.slot k).behind = (s.slot k).behind := by
  by_cases hk : k < s.chain.numCopies
  · refine ⟨hk, ?_⟩
    rcases ht.slot k hk with h1 | ⟨h1, -⟩ <;> rw [h1] at hr ⊢ <;> exact ⟨hr, rfl⟩
  · rcases ht.new k (by omega) with ⟨h1, -⟩ | ⟨⟨a, f, h1⟩, -⟩
    · rw [h1] at hr
      exact absurd (h.slots.passed k r hr).1 hk
    · rw [h1] at hr
      cases hr

/-- The other way round. -/
theorem TxStep.passed_of (hr : (s.slot k).passed = some r) : (s'.slot k).passed = some r := by
  rcases ht.slot k (h.slots.passed k r hr).1 with h1 | ⟨h1, -⟩ <;> rw [h1] <;> exact hr

theorem TxStep.sameMasters : SameMasters s s' where
  evolves := ht.evolves
  owner := fun k hk => ht.owner k (h.lt hk)
  qp0 := ht.rest.qp0
  detached := fun k hk => by rw [ht.slot_eq h hk]
  detached' := by
    intro k hk
    by_cases hlt : k < s.chain.numCopies
    · rcases ht.slot k hlt with h1 | ⟨h1, -⟩ <;> rw [h1] at hk <;> exact hk
    · rcases ht.new k (by omega) with ⟨h1, -⟩ | ⟨⟨a, f, h1⟩, -⟩ <;> rw [h1] at hk
      · exact hk
      · cases hk
  cur := ht.rest.npCurAct
  org := ht.rest.npOrgAct
  obj := fun e => by rw [ht.rest.entries]
  ver := fun e => by rw [ht.rest.entries]
  num := ht.rest.numEntries
  tomb := fun e => by
    rw [ht.rest.entries]
    exact fun he => he

/-- A freed copy stays what it is. -/
theorem TxStep.grave (hk : Grave B s k) :
    Grave B s' k ∧ (s'.chain.copies k).obj = (s.chain.copies k).obj := by
  have hclk := hk.clk
  have hcom : (s.chain.copies k).wrtClk ≠ maxVersion := by
    have := h.masters.le
    omega
  obtain ⟨h1, h2⟩ := ht.kinds k hk.lt hcom
  exact ⟨hk.next ht.num h1 (ht.stamp k hk.lt hcom) (Nat.le_of_eq ht.rest.qp0.symm), h2⟩

theorem TxStep.tombs : Tombs B s' := by
  refine ⟨ht.frees, fun u k hk => ?_, fun e he hte => ?_⟩
  · rw [ht.rest.tv] at hk
    exact (ht.grave h (h.tombs.call u k hk)).1
  · rw [ht.rest.numEntries] at he
    rw [ht.rest.entries] at hte ⊢
    obtain ⟨k, h1, h2⟩ := h.tombs.grave e he hte
    obtain ⟨h3, h4⟩ := ht.grave h h2
    exact ⟨k, h4.trans h1, h3⟩

theorem TxStep.qp : Qp B s' := by
  have hq := h.qp
  have hphase := ht.rest.phase
  have hround := ht.rest.round
  have hclk := ht.rest.qpClk
  have hqp0 := ht.rest.qp0
  have hthreads := ht.rest.threads
  -- a running transaction ran before, or begins in this round
  have hact : ∀ u, s'.Active u → SameTx s s' u ∨ NewTx B s s' u := fun u hu => ht.tx_of hu
  have hc := hq.clk
  have h0 := hq.qp0
  unfold correctQpClock at h0
  constructor
  · exact ht.clk.2
  · rw [hclk]
    exact Nat.le_trans hc ht.clk.1
  · rw [hqp0, hclk]
    exact hq.qp0
  · intro u hu
    rw [hthreads, hround, hqp0]
    rcases hact u hu with ⟨h1, h2, h3⟩ | ⟨-, h1, h2, h3, -⟩
    · rw [h2, h3]
      exact hq.active u h1
    · rw [h2]
      exact ⟨h1, Nat.le_refl _, by omega⟩
  · intro u hu hb
    rw [hclk]
    rw [hround] at hb
    rcases hact u hu with ⟨h1, h2, h3⟩ | ⟨-, -, -, h3, -⟩
    · rw [h3]
      exact hq.current u h1 (h2 ▸ hb)
    · omega
  · intro hw u hu
    rw [hphase] at hw
    rw [hround]
    rcases hact u hu with ⟨h1, h2, -⟩ | ⟨-, -, h2, -, -⟩
    · rw [h2]
      rcases hq.waiting hw u h1 with h3 | h3
      · exact Or.inl (ht.waiting u hu h3)
      · exact Or.inr h3
    · exact Or.inr h2
  · intro h1 h2 u hu
    rw [hphase] at h1 h2
    rw [hround]
    rcases hact u hu with ⟨h3, h4, -⟩ | ⟨-, -, h4, -, -⟩
    · rw [h4]
      exact hq.done h1 h2 u h3
    · exact h4

theorem TxStep.slots : Slots B s' := by
  have hround := ht.rest.tvRound
  have hqp0 := ht.rest.qp0
  constructor
  · exact ht.mem
  · intro k r hr
    obtain ⟨hk, hr, -⟩ := ht.passed h hr
    obtain ⟨-, hbelow, h3, h4⟩ := h.slots.passed k r hr
    have h2 : (s.chain.copies k).wrtClk ≠ maxVersion := by
      have := h.masters.le
      omega
    have hclk := ht.stamp k hk h2
    refine ⟨Nat.lt_of_lt_of_le hk ht.num, ?_, ?_, ?_⟩
    · rw [hclk, hqp0]
      exact hbelow
    · intro hp
      have hins := (ht.chain.chains.head _ k hp).1
      rcases ht.evolves.head _ k hp with h5 | ⟨-, h5⟩
      · rcases ht.inserted k hins with h6 | h6
        · rw [(ht.evolves.old k h6).2.1] at h5
          exact h3 h5
        · exact h2 (held_wrtClk h.chain h6)
      · exact h2 h5
    · rw [hround, ht.owner k hk]
      exact h4
  · intro k hb
    have hpass : (s.slot k).behind = true ∧ k < s.chain.numCopies := by
      by_cases hk : k < s.chain.numCopies
      · refine ⟨?_, hk⟩
        rcases ht.slot k hk with h1 | ⟨h1, -⟩ <;> rw [h1] at hb <;> exact hb
      · rcases ht.new k (by omega) with ⟨h1, -⟩ | ⟨⟨a, f, h1⟩, -⟩ <;> rw [h1] at hb
        · obtain ⟨r, hr, -⟩ := h.slots.behind k hb
          exact absurd (h.slots.passed k r hr).1 hk
        · cases hb
    obtain ⟨r, hr, hlt⟩ := h.slots.behind k hpass.1
    refine ⟨r, ht.passed_of h hr, ?_⟩
    rw [hround, ht.owner k hpass.2]
    exact hlt
  · intro k hf hins
    -- a copy that is inserted now was not given back
    have hk : k < s.chain.numCopies := by
      rcases ht.inserted k hins with h1 | h1
      · exact h.lt h1
      · exact ((h.chain.threads t).holds k h1).alloc
    rcases ht.slot k hk with h1 | ⟨-, -, h1⟩
    · rw [h1] at hf ⊢
      rcases ht.inserted k hins with h2 | h2
      · rw [hround, ht.owner k hk]
        exact h.slots.freed k hf h2
      · rw [((h.tx t).held k h2).1] at hf
        cases hf
    · rw [h1] at hins
      cases hins

theorem TxStep.frame (hu : u ≠ t) : TxFrame s s' u := by
  have hnot : ∀ k, Mine s.chain u k → ¬ Mine s.chain t k := by
    intro k hmu hmt
    exact hu ((hmu.alloc h.chain).2.1.symm.trans (hmt.alloc h.chain).2.1)
  have hentries := ht.rest.entries
  have hsm := ht.sameMasters h
  constructor
  · exact ht.leaves.threads u hu
  · exact ht.dup u hu
  · exact ht.aborting u hu
  · intro j _ hj
    refine ⟨(ht.evolves.old j hj.inserted).1, ?_, ?_⟩
    · rw [ht.slot_eq h hj.inserted]
      exact hj.kept
    · rw [ht.slot_eq h hj.inserted, ht.began u hu]
      exact hj.passed
  · intro e _ he
    refine ⟨?_, ?_, ?_⟩
    · rw [hsm.num]
      exact he.lt
    · rw [hentries]
      exact he.kept
    · rw [hentries, ht.began u hu]
      exact he.passed
  · intro k hk
    refine ⟨?_, ?_⟩
    · rcases ht.copied k with h1 | h1
      · exact h1
      · exact absurd (Or.inl h1) (hnot k hk)
    · intro hf
      rcases ht.slot k (Mine.alloc hk h.chain).1 with h1 | ⟨-, h1, -⟩
      · rw [h1]
        exact hf
      · exact absurd h1 (hnot k hk)
  · exact ht.leaves.copy u hu
  · intro k hk hp
    rw [ht.leaves.head u hu k hk]
    exact hp
  · exact fun j hj => (ht.evolves.old j hj).2.1
  · exact ht.leaves.versions u hu
  · intro k _ _ m hm _
    rw [hsm.curVer, ← hm]
    cases m with
    | org => exact congrFun hsm.org _
    | entry e => exact congrArg some (hsm.ver e)

theorem TxStep.rounds : Rounds s' := by
  have hphase := ht.rest.phase
  have hround := ht.rest.round
  obtain ⟨h1, h2, h3, h4⟩ := h.rounds
  unfold Reclaiming at h1 h2
  constructor
  · unfold Reclaiming
    rw [hphase, hround, ht.rest.tv, ht.rest.tvRound,
      ht.rest.threads]
    exact h1
  · unfold Reclaiming
    rw [hphase, hround, ht.rest.ck, ht.rest.ckRound,
      ht.rest.threads]
    exact h2
  · rw [hround, ht.rest.tvRound]
    exact h3
  · rw [hround, ht.rest.ckRound]
    exact h4

theorem TxStep.entries : Entries s' := by
  obtain ⟨h1, h2, h3, h4⟩ := h.entries
  have hentries := ht.rest.entries
  have hround := ht.rest.ckRound
  constructor
  · rw [hentries, hround, ht.rest.npCurAct, ht.rest.numEntries]
    exact h1
  · rw [hentries, hround]
    exact h2
  · rw [hentries]
    exact h3
  · rw [hentries, ht.rest.ck]
    exact h4

theorem TxStep.flight (hk : k < s'.chain.numCopies)
    (hw : (s'.chain.copies k).wrtClk = maxVersion) (hf : (s'.slot k).freed = false) :
    ∃ u, Mine s'.chain u k := by
  by_cases hlt : k < s.chain.numCopies
  · have hw' : (s.chain.copies k).wrtClk = maxVersion := by
      by_contra hne
      rw [ht.stamp k hlt hne] at hw
      exact hne hw
    have hf' : (s.slot k).freed = false := by
      rcases ht.slot k hlt with h1 | ⟨h1, -⟩
      · rw [← h1]
        exact hf
      · rw [h1] at hf
        cases hf
    obtain ⟨u, hu⟩ := h.flight k hlt hw' hf'
    by_cases hut : u = t
    · subst hut
      rcases ht.keep k hu with h1 | h1 | h1
      · exact ⟨u, h1⟩
      · exact absurd hw h1
      · rw [hf] at h1
        cases h1
    · refine ⟨u, ?_⟩
      unfold Mine
      rw [ht.leaves.threads u hut]
      exact hu
  · rcases ht.new k (by omega) with ⟨-, h1⟩ | ⟨-, h1 | h1⟩
    · omega
    · exact ⟨t, h1⟩
    · rw [hf] at h1
      cases h1

/-- A step of a transaction keeps the invariant. -/
theorem Invariant.txStep : Invariant B s' where
  chain := ht.chain
  plain := ht.plain
  history := ht.history
  masters := h.masters.same (ht.sameMasters h)
  detaches := h.detaches.same (ht.sameMasters h).toSameVersions
    (fun _ => (ht.sameMasters h).tombstoned) (fun o _ => (ht.sameMasters h).curVer o) h.masters
    (ht.rest.tv)
  writes := h.writes.same (ht.sameMasters h) (ht.rest.ck)
  qp := ht.qp h
  rounds := ht.rounds h
  tombs := ht.tombs h
  slots := ht.slots h
  entries := ht.entries h
  tx := by
    intro u
    by_cases hu : u = t
    · rw [hu]
      exact ht.tx
    · exact (h.tx u).frame (ht.frame h hu)
  flight := fun k hk hw hf => ht.flight h hk hw hf
  fresh := by
    intro k hk
    have hlt := ht.num
    rcases ht.copied k with h1 | h1
    · rw [h1]
      exact h.fresh k (by omega)
    · have := ((h.chain.threads t).holds k h1).alloc
      omega

end

/-! ### Steps that insert and stamp nothing -/

theorem Space.same (hs : Slots B s) (hnum : s'.chain.numCopies = s.chain.numCopies)
    (hslot : s'.slot = s.slot) (hmem : s'.mem = s.mem) : Space s s' t where
  num := Nat.le_of_eq hnum.symm
  slot := fun _ _ => Or.inl (by rw [hslot])
  new := fun k hk => Or.inl ⟨by rw [hslot], by omega⟩
  mem := by
    rw [hnum, hslot, hmem]
    exact hs.mem

/-- A copy of its own is given back. -/
theorem Space.giveBack (hs : Slots B s) (hnum : s'.chain.numCopies = s.chain.numCopies)
    (hslot : s'.slot = Function.update s.slot k { s.slot k with freed := true })
    (hmem : s'.mem = s.mem) (hk : Mine s.chain t k)
    (hins : (s'.chain.copies k).inserted = false) (hlt : k < s.chain.numCopies) :
    Space s s' t where
  num := Nat.le_of_eq hnum.symm
  slot := by
    intro j _
    rw [hslot, Function.update_apply]
    split
    · rename_i hjk
      rw [hjk]
      exact Or.inr ⟨rfl, hk, hins⟩
    · exact Or.inl rfl
  new := by
    intro j hj
    rw [hslot, Function.update_of_ne (by omega)]
    exact Or.inl ⟨rfl, by omega⟩
  mem := by
    intro j hj hf
    rw [hslot, Function.update_apply] at hf
    split at hf
    · cases hf
    · rename_i hjk
      rw [hmem, hslot, Function.update_of_ne hjk]
      exact hs.mem j (hnum ▸ hj) hf

/-- A new copy is placed where no copy in use lies. -/
theorem Space.place (hs : Slots B s) {a : ℕ} {f : Bool}
    (hnum : s'.chain.numCopies = s.chain.numCopies + 1)
    (hslot : s'.slot = Function.update s.slot s.chain.numCopies ⟨a, false, none, false, f, false⟩)
    (hmem : s'.mem = Function.update s.mem a s.chain.numCopies) (hv : s.Vacant a)
    (hown : Mine s'.chain t s.chain.numCopies ∨ f = true) : Space s s' t where
  num := by omega
  slot := by
    intro j hj
    rw [hslot, Function.update_of_ne (by omega)]
    exact Or.inl rfl
  new := by
    intro j hj
    by_cases hjn : j = s.chain.numCopies
    · rw [hjn, hslot, Function.update_self]
      exact Or.inr ⟨⟨a, f, rfl⟩, hown⟩
    · rw [hslot, Function.update_of_ne hjn]
      exact Or.inl ⟨rfl, by omega⟩
  mem := by
    intro j hj hf
    rw [hslot, Function.update_apply] at hf
    rw [hmem, hslot]
    split at hf
    · rename_i hjn
      rw [hjn, Function.update_self, Function.update_self]
    · rename_i hjn
      have hlt : j < s.chain.numCopies := by omega
      rw [Function.update_of_ne hjn, Function.update_of_ne (hv j hlt hf)]
      exact hs.mem j hlt hf

/-- Where the thread `t` goes on, the others do not. -/
structure SameOthers (s s' : State) (t : ℕ) : Prop where
  dup : ∀ u, u ≠ t → s'.dup u = s.dup u
  aborting : ∀ u, u ≠ t → s'.aborting u = s.aborting u
  began : ∀ u, u ≠ t → s'.began u = s.began u

theorem Invariant.history_quiet (h : Invariant B s) (hq : Quiet s.chain c' t)
    (hheld : ∀ k ∈ (c'.threads t).held, k ∈ (s.chain.threads t).held ∨ s.copied k = none) :
    History B c' s.copied := by
  refine h.history.quiet h.chain hq ?_
  rintro k x hx (hk | ⟨u, hk⟩)
  · rw [hq.inserted] at hk
    exact Or.inl hk
  · by_cases hu : u = t
    · rw [hu] at hk
      rcases hheld k hk with hk | hk
      · exact Or.inr ⟨t, hk⟩
      · rw [hx] at hk
        cases hk
    · rw [hq.threads u hu] at hk
      exact Or.inr ⟨u, hk⟩

theorem TxStep.of_quiet (h : Invariant B s) (hspace : Space s s' t) (hrest : SameRest s s')
    (hothers : SameOthers s s' t) (hchain : VersionChain.Inv B s'.chain) (hplain : Plain s'.chain)
    (hq : Quiet s.chain s'.chain t) (hhist : History B s'.chain s'.copied)
    (hcop : ∀ k, s'.copied k = s.copied k ∨ k ∈ (s.chain.threads t).held)
    (hkeep : ∀ k, Mine s.chain t k → Mine s'.chain t k ∨
      (s'.chain.copies k).wrtClk ≠ maxVersion ∨ (s'.slot k).freed = true)
    (hclk : s.lastClk ≤ s'.lastClk ∧ s'.lastClk < maxVersion)
    (hact : s'.Active t → SameTx s s' t ∨ NewTx B s s' t)
    (hwait : ∀ u, s'.Active u → u ∈ s.waiting → u ∈ s'.waiting) (htx : TxOk B s' t) :
    TxStep B s s' t where
  toSpace := hspace
  rest := hrest
  chain := hchain
  plain := hplain
  frees := h.tombs.locked.quiet hq
  history := hhist
  leaves := hq.leaves h.chain
  evolves := evolves_quiet hq h.chain
  owner := by
    intro k hk
    unfold State.owner
    rw [hq.ws k hk, hq.thread _ (h.chain.chains.ws k hk)]
  inserted := fun k hk => Or.inl ((hq.inserted k) ▸ hk)
  stamp := fun k hk _ => hq.wrtClk k hk
  kinds := fun k hk hw => ⟨hq.kind k hk hw, hq.obj k hk⟩
  copied := hcop
  keep := hkeep
  dup := hothers.dup
  aborting := hothers.aborting
  began := hothers.began
  clk := hclk
  active := hact
  waiting := hwait
  tx := htx

/-- How the thread itself goes on. -/
theorem TxOk.forward (h : Invariant B s) (hact : s.Active t) (hidle : s.dup t = .idle)
    (hf : Forward s.chain s'.chain t) (haborting : s'.aborting t = s.aborting t)
    (hsafe : ∀ j, Safe s t j → Safe s' t j)
    (hlink : ∀ k ∈ (s'.chain.threads t).held, (s'.chain.copies k).inserted = true →
      ∀ j, (s'.chain.copies k).pCopy = some j → Safe s t j)
    (hmine : ∀ k, Mine s.chain t k → Mine s'.chain t k →
      s'.copied k = s.copied k ∧ s'.slot k = s.slot k)
    (hnew : (s'.chain.threads t).pc.own = some s.chain.numCopies →
      s'.copied s.chain.numCopies = s.copied s.chain.numCopies ∧
        (s'.slot s.chain.numCopies).freed = false)
    (hheld : ∀ k ∈ (s'.chain.threads t).held, (s.chain.threads t).pc.own = some k →
      (s'.dup t).target = some k)
    (hdup : DupOk B s' t (s'.dup t))
    (hinTx : s'.dup t ≠ .idle → (s'.chain.threads t).pc = .inTx) : TxOk B s' t := by
  have ht := h.tx t
  have hab : s'.aborting t = false := haborting.trans hact.2
  constructor
  · intro _ j hj
    refine hsafe j ?_
    -- a pointer is an old one of the thread, or the head of a chain that was just loaded
    rcases hf.ptr j hj with hj | ⟨o, hj⟩
    · exact ht.ptr hact j hj
    · exact h.safe_head hj
  · exact fun _ k hk hins j hj => hsafe j (hlink k hk hins j hj)
  · intro k hk
    rcases hf.own k hk with hk' | ⟨hk', -⟩
    · obtain ⟨h1, h2⟩ := hmine k (Or.inr hk') (Or.inr hk)
      rw [h1, h2]
      exact ht.own k hk'
    · subst hk'
      obtain ⟨h1, h2⟩ := hnew hk
      exact ⟨h1.trans (h.fresh _ (Nat.le_refl _)), h2⟩
  · intro k hk
    rw [hf.localClk]
    rcases hf.held k hk with hk' | hk'
    · obtain ⟨h1, h2⟩ := hmine k (Or.inl hk') (Or.inl hk)
      obtain ⟨h3, h4⟩ := ht.held k hk'
      rw [h1, h2]
      refine ⟨h3, Or.inr ?_⟩
      rcases h4 with h4 | h4
      · rw [hidle] at h4
        cases h4
      · exact h4
    · obtain ⟨-, h2⟩ := hmine k (Or.inr hk') (Or.inl hk)
      rw [h2]
      exact ⟨(ht.own k hk').2, Or.inl (hheld k hk hk')⟩
  · exact hdup
  · rintro (h1 | h1)
    · exact hinTx h1
    · rw [hab] at h1
      cases h1
  · intro h1
    rw [hab] at h1
    cases h1

theorem Invariant.link_quiet (h : Invariant B s) (hact : s.Active t)
    (hf : Forward s.chain s'.chain t) (hq : Quiet s.chain s'.chain t)
    (hk : k ∈ (s'.chain.threads t).held) (hins : (s'.chain.copies k).inserted = true)
    (hj : (s'.chain.copies k).pCopy = some j) : Safe s t j := by
  rw [hq.inserted] at hins
  rw [hq.link k hins] at hj
  rcases hf.held k hk with hk' | hk'
  · exact (h.tx t).link hact k hk' hins j hj
  · rw [h.chain.own_fresh hk'] at hins
    cases hins

/-- A step of a running transaction that inserts and stamps nothing. -/
theorem Invariant.forward_step (h : Invariant B s) (hact : s.Active t) (hidle : s.dup t = .idle)
    (hchain : VersionChain.Inv B s'.chain) (hplain : Plain s'.chain)
    (hq : Quiet s.chain s'.chain t) (hf : Forward s.chain s'.chain t) (hspace : Space s s' t)
    (hrest : SameRest s s') (hothers : SameOthers s s' t) (hcop : s'.copied = s.copied)
    (haborting : s'.aborting = s.aborting) (hbegan : s'.began = s.began)
    (hclk : s.lastClk ≤ s'.lastClk ∧ s'.lastClk < maxVersion)
    (hwait : ∀ u, s'.Active u → u ∈ s.waiting → u ∈ s'.waiting)
    (hmine : ∀ k, Mine s.chain t k → Mine s'.chain t k → s'.slot k = s.slot k)
    (hkeep : ∀ k, (s.chain.threads t).pc.own = some k →
      Mine s'.chain t k ∨ (s'.slot k).freed = true)
    (hnew : (s'.chain.threads t).pc.own = some s.chain.numCopies →
      (s'.slot s.chain.numCopies).freed = false)
    (hheld : ∀ k ∈ (s'.chain.threads t).held, (s.chain.threads t).pc.own = some k →
      (s'.dup t).target = some k)
    (hdup : DupOk B s' t (s'.dup t))
    (hinTx : s'.dup t ≠ .idle → (s'.chain.threads t).pc = .inTx) : TxStep B s s' t := by
  have hsafe : ∀ j, Safe s t j → Safe s' t j := by
    intro j hj
    have hins : (s'.chain.copies j).inserted = true := (hq.inserted j).trans hj.inserted
    have hslot : s'.slot j = s.slot j := by
      rcases hspace.slot j (h.lt hj.inserted) with h1 | ⟨-, -, h1⟩
      · exact h1
      · rw [hins] at h1
        cases h1
    refine ⟨hins, ?_, ?_⟩
    · rw [hslot]
      exact hj.kept
    · rw [hslot, hbegan]
      exact hj.passed
  refine TxStep.of_quiet h hspace hrest hothers hchain hplain hq
    (hcop ▸ h.history_quiet hq ?_) (fun _ => Or.inl (by rw [hcop])) ?_ hclk ?_ hwait ?_
  · intro k hk
    rcases hf.held k hk with h1 | h1
    · exact Or.inl h1
    · exact Or.inr ((h.tx t).own k h1).1
  · rintro k (hk | hk)
    · rcases hf.keep k hk with h1 | h1
      · exact Or.inl (Or.inl h1)
      · exact Or.inr (Or.inl h1)
    · rcases hkeep k hk with h1 | h1
      · exact Or.inl h1
      · exact Or.inr (Or.inr h1)
  · exact fun _ => Or.inl ⟨hact, by rw [hbegan], hf.localClk⟩
  · exact TxOk.forward h hact hidle hf (by rw [haborting]) hsafe
      (fun k hk hins j hj => h.link_quiet hact hf hq hk hins hj)
      (fun k h1 h2 => ⟨by rw [hcop], hmine k h1 h2⟩) (fun hn => ⟨by rw [hcop], hnew hn⟩) hheld
      hdup hinTx

/-- It may leave the space and the masters alone, too. -/
theorem Invariant.quiet_step (h : Invariant B s) (hact : s.Active t) (hidle : s.dup t = .idle)
    (hchain : VersionChain.Inv B s'.chain) (hplain : Plain s'.chain)
    (hq : Quiet s.chain s'.chain t) (hf : Forward s.chain s'.chain t)
    (hown : (s.chain.threads t).pc.own = none) (hown' : (s'.chain.threads t).pc.own = none)
    (hnum : s'.chain.numCopies = s.chain.numCopies) (hslot : s'.slot = s.slot)
    (hmem : s'.mem = s.mem) (hcop : s'.copied = s.copied) (hdup : s'.dup = s.dup)
    (haborting : s'.aborting = s.aborting) (hbegan : s'.began = s.began) (hrest : SameRest s s')
    (hclk : s.lastClk ≤ s'.lastClk ∧ s'.lastClk < maxVersion)
    (hwait : ∀ u, s'.Active u → u ∈ s.waiting → u ∈ s'.waiting) : TxStep B s s' t := by
  refine h.forward_step hact hidle hchain hplain hq hf (Space.same h.slots hnum hslot hmem) hrest
    ⟨fun u _ => by rw [hdup], fun u _ => by rw [haborting], fun u _ => by rw [hbegan]⟩ hcop haborting
    hbegan hclk hwait (fun _ _ _ => by rw [hslot]) ?_ ?_ ?_ ?_ ?_
  · rw [hown]
    exact nofun
  · rw [hown']
    exact nofun
  · rw [hown]
    exact nofun
  · rw [hdup, hidle]
    trivial
  · rw [hdup, hidle]
    exact fun hd => absurd rfl hd

/-! ### The calls of a transaction -/

theorem State.Ready.active (h : s.Ready t) : s.Active t :=
  ⟨by rw [h.1]; exact nofun, h.2.2⟩

theorem Invariant.begin (h : Invariant B s) (hs : begin B s t v = some s') :
    TxStep B s s' t := by
  unfold WriteRule.begin at hs
  obtain ⟨⟨hmem, hread⟩, hs⟩ := Option.ite_none_right_eq_some.mp hs
  obtain ⟨c', hc, rfl⟩ := Option.map_eq_some_iff.mp hs
  have hchain := VersionChain.inv_step h.chain hc
  simp only [VersionChain.step, Option.ite_none_right_eq_some, Option.some_inj] at hc
  obtain ⟨⟨hpc, hv⟩, rfl⟩ := hc
  have ht := h.tx t
  have hp := (h.chain.threads t).pc
  rw [hpc] at hp
  have hheld : (s.chain.threads t).held = [] := by
    rw [VersionChain.held_eq (by simp [hpc])]
    exact hp.1
  have hidle : s.dup t = .idle := by
    by_contra hd
    have := ht.inTx (Or.inl hd)
    rw [hpc] at this
    cases this
  have hab : s.aborting t = false := by
    by_contra hd
    have := ht.inTx (Or.inr (by simpa using hd))
    rw [hpc] at this
    cases this
  set T' : Thread := { s.chain.threads t with pc := .inTx, localClk := v } with hT
  have hthr : (s.chain.setThread t T').threads t = T' := by
    rw [VersionChain.setThread_threads, if_pos rfl]
  have hheld' : T'.held = [] := hp.1
  refine TxStep.of_quiet h (Space.same h.slots rfl rfl rfl) (by constructor <;> rfl)
    ⟨fun u _ => rfl, fun u _ => rfl, fun u hu => Function.update_of_ne hu ..⟩ hchain ?_
    Quiet.setThread (h.history_quiet Quiet.setThread ?_) (fun _ => Or.inl rfl) ?_ ?_ ?_ ?_ ?_
  · exact h.plain.same (fun u hu => by rw [VersionChain.setThread_threads, if_neg hu])
      (by rw [hpc]; rfl) fun _ => ⟨rfl, rfl⟩
  · rw [hthr, hheld']
    intro k hk
    cases hk
  · rintro k (hk | hk)
    · rw [hheld] at hk
      cases hk
    · rw [hpc] at hk
      cases hk
  · have := h.qp.lt
    exact ⟨Nat.le_max_left .., Nat.max_lt.mpr ⟨this, hread.2⟩⟩
  · -- a transaction that begins in this round waits for nothing that was passed before
    refine fun _ => Or.inr ⟨fun ha => ha.1 hpc, hmem, Function.update_self .., ?_, ?_⟩
    · dsimp only
      rw [hthr]
      exact hread.1
    · dsimp only
      rw [hthr]
      exact Nat.le_max_right ..
  · exact fun u _ hu => hu
  · constructor
    · dsimp only
      rw [hthr]
      intro _ k hk
      cases hk
    · dsimp only
      rw [hthr, hheld']
      intro _ k hk
      cases hk
    · dsimp only
      rw [hthr]
      intro k hk
      cases hk
    · dsimp only
      rw [hthr, hheld']
      intro k hk
      cases hk
    · dsimp only [State.read]
      rw [hidle]
      trivial
    · dsimp only [State.read]
      rw [hthr]
      exact fun _ => rfl
    · exact ht.aborting

/-- A step of the machine `VersionChain` between two calls. -/
theorem Invariant.chain_step (h : Invariant B s) (hr : s.Ready t) {a : VersionChain.Op}
    (hc : VersionChain.step B s.chain a = some c') (hq : Quiet s.chain c' t)
    (hf : Forward s.chain c' t) (hown : (c'.threads t).pc.own = none)
    (hnum : c'.numCopies = s.chain.numCopies)
    (hprev : ∀ k, (c'.copies k).wrtClkPrev = (s.chain.copies k).wrtClkPrev) :
    TxStep B s { s with chain := c' } t := by
  refine h.quiet_step hr.active hr.2.1 (VersionChain.inv_step h.chain hc) ?_ hq hf
    (by rw [hr.1]; rfl) hown hnum rfl rfl rfl rfl rfl rfl
    (by constructor <;> rfl) ⟨Nat.le_refl _, h.qp.lt⟩
    fun _ _ hu => hu
  exact h.plain.same hq.threads (by rw [hr.1]; rfl) fun k => ⟨hq.inserted k, hprev k⟩

/-- The thread may pass a quiescent state, or read the clock. -/
theorem TxStep.clocks {ws : List ℕ} {l : ℕ} (ht : TxStep B s s' t)
    (hl : s'.lastClk ≤ l ∧ l < maxVersion)
    (hw : ∀ u, s'.Active u → u ∈ s'.waiting → u ∈ ws) :
    TxStep B s { s' with waiting := ws, lastClk := l } t where
  toSpace := ⟨ht.num, ht.slot, ht.new, ht.mem⟩
  rest := by
    have := ht.rest
    exact ⟨this.threads, this.npCurAct, this.npOrgAct, this.entries, this.numEntries, this.phase,
      this.round, this.qpClk, this.qp0, this.qp1, this.qp2, this.lastCkpt, this.tv, this.tvRound,
      this.ck, this.ckRound⟩
  chain := ht.chain
  plain := ht.plain
  frees := ht.frees
  history := ht.history
  leaves := ht.leaves
  evolves := ht.evolves
  owner := ht.owner
  inserted := ht.inserted
  stamp := ht.stamp
  kinds := ht.kinds
  copied := ht.copied
  keep := ht.keep
  dup := ht.dup
  aborting := ht.aborting
  began := ht.began
  clk := ⟨Nat.le_trans ht.clk.1 hl.1, hl.2⟩
  active := by
    intro ha
    rcases ht.active ha with ⟨h1, h2, h3⟩ | ⟨h1, h2, h3, h4, h5⟩
    · exact Or.inl ⟨h1, h2, h3⟩
    · exact Or.inr ⟨h1, h2, h3, h4, Nat.le_trans h5 hl.1⟩
  waiting := fun u hu hmem => hw u hu (ht.waiting u hu hmem)
  tx := ht.tx.frame (SameMain.frame (by constructor <;> rfl))

theorem TxStep.endRun (ht : TxStep B s s' t) (hn : ¬ s'.Active t) :
    TxStep B s (s'.endRun t) t := by
  refine ht.clocks ⟨Nat.le_refl _, ht.clk.2⟩ fun u hu hmem => (List.mem_erase_of_ne ?_).mpr hmem
  rintro rfl
  exact hn hu

theorem TxStep.read (ht : TxStep B s s' t) (hv : v < maxVersion) : TxStep B s (s'.read v) t :=
  ht.clocks ⟨Nat.le_max_left .., Nat.max_lt.mpr ⟨ht.clk.2, hv⟩⟩ fun _ _ hu => hu

theorem Invariant.lock (h : Invariant B s) {kind : VersionChain.Kind}
    (hs : step B s (.lock t o kind) = some s') : TxStep B s s' t := by
  dsimp only [step] at hs
  obtain ⟨hr, hs⟩ := Option.ite_none_right_eq_some.mp hs
  obtain ⟨c', hc, rfl⟩ := Option.map_eq_some_iff.mp hs
  have hc' := hc
  simp only [VersionChain.step, Option.ite_none_right_eq_some, Option.some_inj] at hc'
  obtain ⟨-, rfl⟩ := hc'
  refine h.chain_step hr hc Quiet.setPc ?_ (by rw [VersionChain.setPc_threads, if_pos rfl]; rfl) rfl
    fun _ => rfl
  refine Forward.setPc (p := .lockCopy o kind) (by simp [hr.1]) (by simp [hr.1]) (by simp)
    (by rw [VersionChain.setPc_threads, if_pos rfl]) (fun k hk => ?_) (fun k hk => ?_) fun k hk => ?_
  · cases hk
  · cases hk
  · rw [hr.1] at hk
    cases hk

theorem Invariant.free (h : Invariant B s) (hs : step B s (.free t k) = some s') :
    TxStep B s s' t := by
  dsimp only [step] at hs
  obtain ⟨hr, hs⟩ := Option.ite_none_right_eq_some.mp hs
  obtain ⟨c', hc, rfl⟩ := Option.map_eq_some_iff.mp hs
  have hc' := hc
  simp only [VersionChain.step, Option.ite_none_right_eq_some, Option.some_inj] at hc'
  obtain ⟨⟨-, hk⟩, rfl⟩ := hc'
  have hkm : (s.chain.copies k).wrtClk = maxVersion :=
    held_wrtClk (t := t) h.chain (by rw [VersionChain.held_eq (by simp [hr.1])]; exact hk)
  refine h.chain_step hr hc (VersionChain.quiet_setCopy rfl rfl rfl rfl (Or.inr hkm) fun _ => rfl)
    ?_ ?_ rfl ?_
  · refine Forward.setPc (p := .inTx) (by simp [hr.1]) (by simp [hr.1]) (by simp) ?_
      (fun k hk => ?_) (fun k hk => ?_) fun _ _ => Or.inr rfl
    · rw [← hr.1]
      rfl
    · cases hk
    · cases hk
  · show (s.chain.threads t).pc.own = none
    rw [hr.1]
    rfl
  · intro j
    rw [VersionChain.setCopy_copies]
    split
    · rename_i hjk
      rw [hjk]
    · rfl

theorem Invariant.endTx (h : Invariant B s) (hs : endTx B s t = some s') :
    TxStep B s s' t := by
  unfold WriteRule.endTx at hs
  obtain ⟨hr, hs⟩ := Option.ite_none_right_eq_some.mp hs
  obtain ⟨c', hc, rfl⟩ := Option.map_eq_some_iff.mp hs
  have hc' := hc
  simp only [VersionChain.step, Option.ite_none_right_eq_some, Option.some_inj] at hc'
  obtain ⟨-, hset⟩ := hc'
  have hpc : (c'.threads t).pc = if (s.chain.threads t).copies = [] then .outside
      else .move (s.chain.threads t).copies := by
    rw [← hset, VersionChain.setPc_threads, if_pos rfl]
  have h₁ : TxStep B s { s with chain := c' } t := by
    refine h.chain_step hr hc (hset ▸ Quiet.setPc) ?_ ?_ (hset ▸ rfl) (hset ▸ fun _ => rfl)
    · refine Forward.setPc (p := if (s.chain.threads t).copies = [] then .outside
        else .move (s.chain.threads t).copies) (by simp [hr.1]) (by simp [hr.1])
        ?_ (by rw [← hset, VersionChain.setPc_threads, if_pos rfl]) ?_ ?_ ?_
      · split <;> simp
      · intro k hk
        split at hk <;> cases hk
      · intro k hk
        split at hk <;> cases hk
      · intro k hk
        rw [hr.1] at hk
        cases hk
    · rw [hpc]
      split <;> rfl
  split
  · rename_i hout
    exact h₁.endRun fun ha => ha.1 hout
  · exact h₁

/-! ### `ts_abort` -/

theorem Invariant.abort (h : Invariant B s) (hs : abort s t = some s') :
    TxStep B s s' t := by
  unfold WriteRule.abort at hs
  obtain ⟨hr, hs⟩ := Option.ite_none_right_eq_some.mp hs
  cases hs
  have ht := h.tx t
  have hnot : ¬ State.Active { s with aborting := Function.update s.aborting t true } t := by
    rintro ⟨-, hab⟩
    have hab' : Function.update s.aborting t true t = false := hab
    rw [Function.update_self] at hab'
    cases hab'
  have h₁ : TxStep B s { s with aborting := Function.update s.aborting t true } t := by
    refine TxStep.of_quiet h (Space.same h.slots rfl rfl rfl) (by constructor <;> rfl)
      ⟨fun _ _ => rfl, fun u hu => Function.update_of_ne hu .., fun _ _ => rfl⟩ h.chain h.plain
      Quiet.refl h.history (fun _ => Or.inl rfl) (fun k hk => Or.inl hk) ⟨Nat.le_refl _, h.qp.lt⟩
      (fun ha => absurd ha hnot) (fun _ _ hu => hu) ?_
    refine ⟨fun ha => absurd ha hnot, fun ha => absurd ha hnot, ht.own, ht.held, ?_,
      fun _ => hr.1, fun _ => hr.2.1⟩
    show DupOk B _ t (s.dup t)
    rw [hr.2.1]
    trivial
  exact h₁.endRun hnot

theorem Invariant.abortStep (h : Invariant B s) (hs : abortStep s t = some s') :
    TxStep B s s' t := by
  unfold WriteRule.abortStep at hs
  obtain ⟨hab, hs⟩ := Option.ite_none_right_eq_some.mp hs
  have ht := h.tx t
  have hpc := ht.inTx (Or.inr hab)
  have hidle := ht.aborting hab
  have hown : (s.chain.threads t).pc.own = none := by rw [hpc]; rfl
  have hheld : (s.chain.threads t).held = (s.chain.threads t).copies :=
    VersionChain.held_eq (by rw [hpc]; exact nofun)
  dsimp only at hs
  split at hs <;> cases hs
  · rename_i hnil
    -- the end of the loop
    set T' : Thread := { s.chain.threads t with pc := .outside, ws := none, copies := [] } with hT
    have hthr : (s.chain.setThread t T').threads t = T' := by
      rw [VersionChain.setThread_threads, if_pos rfl]
    have hchain : VersionChain.Inv B (s.chain.setThread t T') := h.chain.setThread
      ⟨nofun, (h.chain.threads t).localClk, List.nodup_nil, nofun, nofun, rfl, nofun⟩
    refine TxStep.of_quiet h (Space.same h.slots rfl rfl rfl) (by constructor <;> rfl)
      ⟨fun _ _ => rfl, fun u hu => Function.update_of_ne hu .., fun _ _ => rfl⟩ hchain ?_
      Quiet.setThread (h.history_quiet Quiet.setThread ?_) (fun _ => Or.inl rfl) ?_
      ⟨Nat.le_refl _, h.qp.lt⟩ ?_ (fun _ _ hu => hu) ?_
    · exact h.plain.same (fun u hu => by rw [VersionChain.setThread_threads, if_neg hu])
        (by rw [hpc]; rfl) fun _ => ⟨rfl, rfl⟩
    · rw [hthr]
      exact nofun
    · rintro k (hk | hk)
      · rw [hheld, hnil] at hk
        cases hk
      · rw [hown] at hk
        cases hk
    · rintro ⟨ha, -⟩
      exact absurd (congrArg Thread.pc hthr) ha
    · constructor
      · rintro ⟨ha, -⟩
        exact absurd (congrArg Thread.pc hthr) ha
      · rintro ⟨ha, -⟩
        exact absurd (congrArg Thread.pc hthr) ha
      · dsimp only
        rw [hthr]
        exact nofun
      · dsimp only
        rw [hthr]
        exact nofun
      · dsimp only
        rw [hidle]
        trivial
      · dsimp only
        rw [hidle, Function.update_self]
        rintro (hd | hd)
        · exact absurd rfl hd
        · cases hd
      · exact fun _ => hidle
  · rename_i k ks hks
    -- the lock of the next copy is given up, and its space may be taken from now on
    set T' : Thread := { s.chain.threads t with copies := ks } with hT
    have hthr : ((s.chain.setPLock (s.chain.copies k).obj none).setThread t T').threads t = T' := by
      rw [VersionChain.setThread_threads, if_pos rfl]
    have hheld' : T'.held = ks := VersionChain.held_eq (by rw [hT]; dsimp only; rw [hpc]; exact nofun)
    have hk : k ∈ (s.chain.threads t).held := by
      rw [hheld, hks]
      exact List.mem_cons_self ..
    have hsub : ∀ j ∈ ks, j ∈ (s.chain.threads t).held ∧ j ≠ k := by
      intro j hj
      have hnodup := (h.chain.threads t).nodup
      rw [hks, List.nodup_cons] at hnodup
      refine ⟨?_, ?_⟩
      · rw [hheld, hks]
        exact List.mem_cons_of_mem _ hj
      · rintro rfl
        exact hnodup.1 hj
    have hfresh : (s.chain.copies k).inserted = false := by
      have hp := (h.chain.threads t).pc
      rw [hpc] at hp
      exact (hp.1 k (hheld ▸ hk)).1
    have hh := (h.chain.threads t).holds k hk
    have hq : Quiet s.chain ((s.chain.setPLock (s.chain.copies k).obj none).setThread t T') t :=
      Quiet.refl.of_copies rfl rfl rfl rfl
        (fun _ _ hw hl => VersionChain.lock_of_stamped hh.lock hh.unstamped hw hl) fun u hu => by
          rw [VersionChain.setThread_threads, if_neg hu]
          rfl
    refine TxStep.of_quiet h (Space.giveBack (k := k) h.slots rfl rfl rfl
        (Or.inl hk) hfresh (Mine.alloc (Or.inl hk) h.chain).1) (by constructor <;> rfl)
      (by constructor <;> intros <;> rfl)
      (VersionChain.inv_unlock h.chain hpc hks) ?_ hq (h.history_quiet hq ?_)
      (fun _ => Or.inl rfl) ?_ ⟨Nat.le_refl _, h.qp.lt⟩ ?_ (fun _ _ hu => hu) ?_
    · exact h.plain.same hq.threads (by rw [hpc]; rfl) fun _ => ⟨rfl, rfl⟩
    · dsimp only [State.giveBack, State.setSlot]
      rw [hthr, hheld']
      exact fun j hj => Or.inl (hsub j hj).1
    · rintro j (hj | hj)
      · rw [hheld, hks] at hj
        rcases List.mem_cons.mp hj with rfl | hj
        · -- the copy of the lock that was given up
          refine Or.inr (Or.inr ?_)
          show (Function.update s.slot j { s.slot j with freed := true } j).freed = true
          rw [Function.update_self]
        · refine Or.inl (Or.inl ?_)
          show j ∈ (((s.chain.setPLock (s.chain.copies k).obj none).setThread t T').threads t).held
          rw [hthr, hheld']
          exact hj
      · rw [hown] at hj
        cases hj
    · rintro ⟨-, ha⟩
      have ha' : s.aborting t = false := ha
      rw [hab] at ha'
      cases ha'
    · constructor
      · rintro ⟨-, ha⟩
        have ha' : s.aborting t = false := ha
        rw [hab] at ha'
        cases ha'
      · rintro ⟨-, ha⟩
        have ha' : s.aborting t = false := ha
        rw [hab] at ha'
        cases ha'
      · dsimp only [State.giveBack, State.setSlot]
        rw [hthr]
        intro j hj
        rw [show T'.pc.own = none from hown] at hj
        cases hj
      · dsimp only [State.giveBack, State.setSlot]
        rw [hthr, hheld']
        intro j hj
        rw [Function.update_of_ne (hsub j hj).2]
        exact ht.held j (hsub j hj).1
      · dsimp only [State.giveBack, State.setSlot]
        rw [hidle]
        trivial
      · dsimp only [State.giveBack, State.setSlot]
        rw [hthr]
        exact fun _ => hpc
      · exact fun _ => hidle

end TimeStone.WriteRule
