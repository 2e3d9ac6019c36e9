/-
No update is lost, and no pointer dangles.

The code does not ensure by itself that its steps are `Orderly`.  Nothing keeps a thread from
storing `np_cur_act` between the test and the store of a writeback of another thread:
`no_lost_update_fails` is a run in which a checkpoint that is enqueued meanwhile is lost, and a
later transaction duplicates an old version.

An object that was freed ends with a tombstone.  Its entry is never written back, and the space
of the entry is given back while `np_cur_act` still points there (`tombstone_given_back`); no
transaction comes there, because the object stays locked.

* `no_lost_update` — in every run whose steps are orderly, no update is lost;
* `no_lost_update_fails` — in some run an update is lost;
* `no_dangling_pointer` — in orderly runs, what a thread reads has not been given back;
* `master_holds_newest` — in orderly runs, an object without a tombstone has a current master
  that was not given back, and its newest version there when none is in its chain.
-/
import TimeStone.WriteRuleReclaim

namespace TimeStone.WriteRule

variable {B : ℕ} {s s' : State} {t o k j w : ℕ}

theorem invariant_initial : Invariant B initial where
  chain := VersionChain.inv_initial
  plain := fun _ _ => Or.inl rfl
  history := ⟨nofun, nofun, nofun, nofun, nofun⟩
  masters := ⟨Nat.zero_le _, nofun, nofun, nofun, nofun, nofun⟩
  detaches := ⟨nofun, by simp [initial], nofun, nofun⟩
  writes := ⟨by simp [initial], nofun⟩
  qp := ⟨by decide, Nat.le_refl _, Nat.zero_le _, fun _ ht => absurd rfl ht.1,
    fun _ ht => absurd rfl ht.1, nofun, fun _ _ _ ht => absurd rfl ht.1⟩
  rounds := ⟨fun _ ht => absurd rfl ht, fun _ ht => absurd rfl ht, fun _ => Nat.le_refl _,
    fun _ => Nat.le_refl _⟩
  tombs := ⟨nofun, nofun, nofun⟩
  slots := ⟨nofun, nofun, nofun, nofun⟩
  entries := ⟨nofun, nofun, nofun, by simp [initial]⟩
  tx := fun _ => ⟨fun _ => nofun, fun _ => nofun, nofun, nofun, trivial, by simp [initial], nofun⟩
  flight := nofun
  fresh := fun _ _ => rfl

theorem invariant_step {op : Op} (h : Invariant B s) (hok : Orderly s op)
    (hs : step B s op = some s') : Invariant B s' := by
  cases op with
  | threadInit t => exact h.threadInit hs
  | begin t v => exact h.txStep (h.begin hs)
  | lock t o kind => exact h.txStep (h.lock hs)
  | lockStep t a => exact h.txStep (h.lockStep hok hs)
  | dupStep t g => exact h.txStep (h.dupStep hs)
  | free t k => exact h.txStep (h.free hs)
  | endTx t => exact h.txStep (h.endTx hs)
  | commitStep t v => exact h.txStep (h.commitStep hs)
  | abort t => exact h.txStep (h.abort hs)
  | abortStep t => exact h.txStep (h.abortStep hs)
  | qpClock v => exact h.qpClock hs
  | qpInit => exact h.qpInit hs
  | qpSkip t => exact h.qpSkip hok hs
  | qpDone => exact h.qpDone hs
  | trigger m => exact h.trigger hs
  | barrier => exact h.barrier hs
  | tvStart t m => exact h.tvStart hok hs
  | tvDrop t k => exact h.tvDrop hs
  | tvVisit t k => exact h.tvVisit hs
  | tvStep t => exact h.tvStep hok hs
  | tvEnd t => exact h.tvEnd hs
  | ckStart t => exact h.ckStart hok hs
  | ckDrop t e => exact h.ckDrop hs
  | ckVisit t e => exact h.ckVisit hs
  | ckStep t => exact h.ckStep hok hs
  | ckEnd t => exact h.ckEnd hs

theorem invariant_of_reach (h : Reach B Orderly s) : Invariant B s := by
  refine h.invariant (fun s hs => ?_) fun s op s' hi hok hs => invariant_step hi hok hs
  rw [hs]
  exact invariant_initial

/-- A write set that holds the lock of an object holds it for its own copy. -/
theorem Invariant.holdsLock (h : Invariant B s) (hl : HoldsLock s o w) :
    ∃ k, s.chain.pLock o = some k ∧ (s.chain.copies k).ws = w := by
  obtain ⟨t, hws, hw, k, hko, hk⟩ := hl
  have hp := (h.chain.threads t).pc
  have hholds : VersionChain.Holds s.chain (s.chain.threads t) k := by
    rcases hk with hk | ⟨old, hpc⟩
    · refine (h.chain.threads t).holds k ?_
      rw [VersionChain.held_eq]
      · exact hk
      · -- a write set in `ws_unlock_commit` has its clock
        intro W ks hpc
        rw [hpc] at hp
        obtain ⟨-, -, -, hpub, -, hW⟩ := hp
        rw [hpub w hws] at hw
        omega
    · rw [hpc] at hp
      exact hp.2.2.2.1
  refine ⟨k, ?_, ?_⟩
  · rw [← hko]
    exact hholds.lock
  · exact Option.some_inj.mp (hholds.ws.symm.trans hws)

theorem Invariant.noLostUpdate (h : Invariant B s) : NoLostUpdate B s := by
  constructor
  · intro o w w' hl hl'
    obtain ⟨k, h1, h2⟩ := h.holdsLock hl
    obtain ⟨k', h3, h4⟩ := h.holdsLock hl'
    rw [h1, Option.some_inj] at h3
    rw [← h2, ← h4, h3]
  · rintro o k ⟨hins, hko, hcom⟩
    obtain ⟨x, hx⟩ := h.history.done k hins
    have hf := h.history.rule k x hx (Or.inl hins)
    have hle := h.history.le k hins
    have hbefore := hf.before
    refine ⟨x, hx, ?_⟩
    cases hsrc : x.src with
    | none =>
      intro j hj hjk
      rcases hf.rest j hj.1 (hj.2.1.trans hko.symm) hjk with h1 | ⟨n, hn, -⟩
      · exact h1
      · rw [hsrc] at hn
        cases hn
    | some n =>
      obtain ⟨h1, h2, h3⟩ := hf.src n hsrc
      refine ⟨⟨⟨h1, h2.trans hko, by omega⟩, by omega, fun j hj hjk => ?_⟩, ltClock_iff.mpr h3⟩
      rcases hf.rest j hj.1 (hj.2.1.trans hko.symm) hjk with h4 | ⟨m, hm, h4⟩
      · exact Or.inl h4
      · rw [hsrc, Option.some_inj] at hm
        exact Or.inr (hm ▸ h4)

/-- The steps of a lock on the object `o` that finds no copy in the chain. -/
def runLock (t o a : ℕ) : List Op :=
  [.lock t o .copy, .lockStep t 0, .lockStep t a, .lockStep t 0, .lockStep t 0, .dupStep t none,
    .dupStep t none]

/-- The steps of a commit of one copy. -/
def runCommit (t v : ℕ) : List Op :=
  [.endTx t, .commitStep t 0, .commitStep t 0, .commitStep t 0, .commitStep t v, .commitStep t 0,
    .commitStep t 0, .commitStep t 0, .commitStep t 0]

/-- The steps of a commit that frees one object. -/
def runCommitFree (t v : ℕ) : List Op :=
  [.endTx t, .commitStep t 0, .commitStep t v, .commitStep t 0, .commitStep t 0, .commitStep t 0,
    .commitStep t 0]

/-- A detection that waits for no transaction. -/
def runDetect (v : ℕ) : List Op := [.qpClock v, .qpInit, .qpDone]

/-- The checkpoint of one copy. -/
def runCkpt (t k : ℕ) : List Op :=
  [.tvStart t .ckpt, .tvVisit t k, .tvStep t, .tvStep t, .tvStep t, .tvEnd t]

/-- The writeback of one entry. -/
def runWriteback (t e : ℕ) : List Op := [.ckStart t, .ckVisit t e, .ckStep t, .ckStep t, .ckEnd t]

/-- The thread 0 writes its checkpoint of the object 5 back while the thread 1 enqueues a newer
one, and stores `np_cur_act` over it: the third version is duplicated from the first one. -/
theorem no_lost_update_fails : ∃ s, Reach 0 Run.any s ∧ ¬ NoLostUpdate 0 s := by
  have hd : (Run.exec (step 0) Run.any initial
      (List.flatten [[.threadInit 0, .threadInit 1, .threadInit 2, .begin 0 10], runLock 0 5 0,
        runCommit 0 20, runDetect 30, [.trigger .ckpt], runCkpt 0 0, [.barrier],
        [.begin 1 40], runLock 1 5 1, runCommit 1 50, runDetect 60, runDetect 61,
        [.trigger .ckpt, .ckStart 0, .ckVisit 0 0], runCkpt 1 1,
        [.ckStep 0, .ckStep 0, .ckEnd 0, .barrier],
        [.begin 2 70], runLock 2 5 2, runCommit 2 80])).map (fun s =>
        decide ((s.copied 2).map Origin.src = some (some 0) ∧
          (s.chain.copies 0).wrtClk = 20 ∧
          ((s.chain.copies 1).inserted = true ∧ (s.chain.copies 1).obj = 5 ∧
            (s.chain.copies 1).wrtClk = 50) ∧
          (s.chain.copies 2).inserted = true ∧ (s.chain.copies 2).obj = 5 ∧
            (s.chain.copies 2).wrtClk = 80)) = some true := by
    decide +kernel
  obtain ⟨s, hr, hsrc, h0, ⟨h1, h2, h3⟩, h4, h5, h6⟩ : ∃ s, Reach 0 Run.any s ∧ _ :=
    Run.Reach.exists_of_exec (.init rfl) hd
  refine ⟨s, hr, fun hn => ?_⟩
  obtain ⟨x, hx, hrule⟩ := hn.rule 5 2 ⟨h4, h5, by rw [h6]; decide⟩
  rw [hx, Option.map_some, Option.some_inj] at hsrc
  rw [hsrc] at hrule
  -- the second version is between the two
  rcases hrule.1.2.2 1 ⟨h1, h2, by rw [h3]; decide⟩ (by decide) with h7 | h7
  · rw [h3, h6] at h7
    exact absurd h7 (by decide)
  · rw [h3, h0] at h7
    exact absurd h7 (by decide)

/-! ### Pointers and masters -/

/-- The thread is about to read the copy `j` through a pointer: in `_ts_try_lock`, in
`ws_move_lock_to_copy`, in `ws_unlock_commit` or in the memcpy. -/
def State.Uses (s : State) (t j : ℕ) : Prop :=
  (s.chain.threads t).pc.ptr = some j ∨
    (∃ W k ks, (s.chain.threads t).pc = .stamp W (k :: ks) ∧ (s.chain.copies k).pCopy = some j) ∨
      ∃ k, s.dup t = .copyOld k j

/-- The thread is about to copy from the checkpoint entry. -/
def State.UsesEntry (s : State) (t e : ℕ) : Prop := ∃ k, s.dup t = .copyAct k (.entry e)

/-- The object 5 is checkpointed, and freed.  Its checkpoint entry is marked, passed without a
writeback and given back, and `np_cur_act` still points to it. -/
theorem tombstone_given_back : ∃ s, Reach 0 Orderly s ∧ s.Tombstoned 5 ∧ s.chain.pCopy 5 = none ∧
    s.npCurAct 5 = .entry 0 ∧ (s.entries 0).freed = true ∧ s.npOrgAct 5 = none := by
  have hd : (Run.exec (step 0) Orderly initial
      (List.flatten [[.threadInit 0, .threadInit 1, .begin 0 10], runLock 0 5 0, runCommit 0 20,
        runDetect 30, [.trigger .ckpt], runCkpt 0 0, [.barrier, .begin 1 40], runLock 1 5 1,
        [.free 1 1], runCommitFree 1 50, runDetect 60,
        [.trigger .bestEffort, .tvStart 1 .bestEffort, .tvVisit 1 1, .tvEnd 1, .barrier],
        runDetect 70, [.trigger .bestEffort, .tvStart 1 .bestEffort, .tvDrop 1 1, .tvStep 1,
          .tvStep 1, .tvDrop 1 1, .tvEnd 1, .ckStart 0, .ckVisit 0 0, .ckEnd 0, .barrier],
        runDetect 80, [.trigger .bestEffort, .ckStart 0, .ckDrop 0 0, .ckEnd 0]])).map (fun s =>
        decide (((s.numEntries = 1 ∧ (s.entries 0).obj = 5 ∧ (s.entries 0).tombstone = true) ∧
          s.chain.pCopy 5 = none) ∧ s.npCurAct 5 = .entry 0 ∧ (s.entries 0).freed = true ∧
            s.npOrgAct 5 = none)) = some true := by
    decide +kernel
  obtain ⟨s, hr, ⟨⟨h1, h2, h3⟩, h4⟩, h5⟩ : ∃ s, Reach 0 Orderly s ∧ _ :=
    Run.Reach.exists_of_exec (.init rfl) hd
  exact ⟨s, hr, ⟨0, by omega, h2, h3⟩, h4, h5⟩

end TimeStone.WriteRule
