/-
What a step leaves to the readers.

`Frame` says it of all running transactions at once: copies and entries that are safe for one
of them stay safe, the original master of an object stays as it is while it is read
(`OrgOk`), and the version in a current master does not get older.

* `moves_txStep` — the versions, in a step of a transaction;
* `frame_txStep` — the steps of the transactions;
* `frame_of` — the steps of the QP thread and of the reclamations.
-/
import TimeStone.SnapshotReadChain
import TimeStone.WriteRuleReclaim

namespace TimeStone.SnapshotRead

open VersionChain (Quiet)
open WriteRule (Master Mode Safe SafeEntry TxStep SameTx NewTx held_wrtClk)

variable {B : ℕ} {s s' : WriteRule.State} {t u o k j n e v a r : ℕ}

/-! ### The versions -/

theorem moves_same {l : ℕ} {c c' : VersionChain.State} (hcop : c'.copies = c.copies)
    (hwss : c'.wss = c.wss) (hthr : c'.threads = c.threads) : Moves B l c c' := by
  have hunseen : ∀ {k x}, Unseen B c k x → Unseen B c' k x := by
    rintro k x ⟨h1, h2⟩
    constructor
    · rw [hcop, hwss]
      exact h1
    · rw [hcop, hthr]
      exact h2
  constructor
  · rw [hcop]
    exact fun _ hk => ⟨hk, rfl, rfl, rfl⟩
  · rw [hcop]
    exact fun _ _ _ => rfl
  · rw [hcop]
    exact fun _ _ _ _ _ h => h
  · rw [hwss]
    exact fun _ _ _ => rfl
  · exact fun _ _ _ _ h => hunseen h
  · intro k h1 h2
    rw [hcop, h1] at h2
    cases h2
  · rintro ⟨h1, h2⟩
    constructor
    · rw [hwss, hthr]
      exact h1
    · rw [hwss, hthr]
      exact h2
  · unfold Prevs
    rw [hcop]
    exact fun h => h

theorem moves_dupStep {g : Option ℕ} (hs : WriteRule.dupStep s t g = some s') :
    Moves B s.lastClk s.chain s'.chain := by
  unfold WriteRule.dupStep at hs
  split at hs <;> cases hs <;> exact moves_same rfl rfl rfl

theorem moves_abort (hs : WriteRule.abort s t = some s') :
    Moves B s.lastClk s.chain s'.chain := by
  unfold WriteRule.abort at hs
  obtain ⟨-, hs⟩ := Option.ite_none_right_eq_some.mp hs
  cases hs
  exact moves_same rfl rfl rfl

variable (h : WriteRule.Invariant B s)

include h

theorem moves_setThread {T : VersionChain.Thread}
    (hpc : ∀ W, (s.chain.threads t).pc ≠ .publish W) (hT : takenClk T.pc = none) (l : ℕ) :
    Moves B l s.chain (s.chain.setThread t T) := by
  refine moves_calm (t := t) h.chain Quiet.setThread (.of_wss rfl hpc ?_) fun _ _ => Or.inl rfl
  rw [VersionChain.setThread_threads, if_pos rfl]
  exact hT

theorem moves_begin (hs : WriteRule.begin B s t v = some s') :
    Moves B s.lastClk s.chain s'.chain := by
  unfold WriteRule.begin at hs
  obtain ⟨-, hs⟩ := Option.ite_none_right_eq_some.mp hs
  obtain ⟨c', hc, rfl⟩ := Option.map_eq_some_iff.mp hs
  simp only [VersionChain.step, Option.ite_none_right_eq_some, Option.some_inj] at hc
  obtain ⟨⟨hpc, -⟩, rfl⟩ := hc
  exact moves_setThread h (by simp [hpc]) rfl _

theorem moves_lock {kind : VersionChain.Kind}
    (hs : WriteRule.step B s (.lock t o kind) = some s') :
    Moves B s.lastClk s.chain s'.chain := by
  dsimp only [WriteRule.step] at hs
  obtain ⟨hr, hs⟩ := Option.ite_none_right_eq_some.mp hs
  obtain ⟨c', hc, rfl⟩ := Option.map_eq_some_iff.mp hs
  simp only [VersionChain.step, Option.ite_none_right_eq_some, Option.some_inj] at hc
  obtain ⟨-, rfl⟩ := hc
  exact moves_setThread h (by simp [hr.1]) rfl _

theorem moves_free (hs : WriteRule.step B s (.free t k) = some s') :
    Moves B s.lastClk s.chain s'.chain := by
  dsimp only [WriteRule.step] at hs
  obtain ⟨hr, hs⟩ := Option.ite_none_right_eq_some.mp hs
  obtain ⟨c', hc, rfl⟩ := Option.map_eq_some_iff.mp hs
  simp only [VersionChain.step, Option.ite_none_right_eq_some, Option.some_inj] at hc
  obtain ⟨⟨-, hk⟩, rfl⟩ := hc
  have hkm : (s.chain.copies k).wrtClk = maxVersion :=
    held_wrtClk (t := t) h.chain (by rw [VersionChain.held_eq (by simp [hr.1])]; exact hk)
  refine moves_calm (t := t) h.chain
    (VersionChain.quiet_setCopy rfl rfl rfl rfl (Or.inr hkm) fun _ => rfl)
    (.of_wss rfl (by simp [hr.1]) ?_) fun j _ => Or.inl ?_
  · show takenClk (s.chain.threads t).pc = none
    rw [hr.1]
    rfl
  · rw [VersionChain.setCopy_copies]
    split
    · rename_i hj
      rw [hj]
    · rfl

theorem moves_endTx (hs : WriteRule.endTx B s t = some s') :
    Moves B s.lastClk s.chain s'.chain := by
  unfold WriteRule.endTx at hs
  obtain ⟨hr, hs⟩ := Option.ite_none_right_eq_some.mp hs
  obtain ⟨c', hc, rfl⟩ := Option.map_eq_some_iff.mp hs
  simp only [VersionChain.step, Option.ite_none_right_eq_some, Option.some_inj] at hc
  obtain ⟨-, hset⟩ := hc
  have hm : Moves B s.lastClk s.chain c' := by
    rw [← hset]
    exact moves_setThread h (by simp [hr.1]) (by split <;> rfl) _
  split <;> exact hm

theorem moves_lock_step (hs : WriteRule.lockStep B s t a = some s') :
    Moves B s.lastClk s.chain s'.chain := by
  unfold WriteRule.lockStep at hs
  rw [h.view_eq] at hs
  obtain ⟨c', hc, hs⟩ := Option.bind_eq_some_iff.mp hs
  have hm : Moves B s.lastClk s.chain c' := moves_lockStep h.chain hc
  have heq : s'.chain = c' := by
    dsimp only at hs
    split at hs
    · cases hs
      split <;> rfl
    · cases hs
      split <;> rfl
    · split at hs
      · split at hs <;> cases hs <;> rfl
      · cases hs
        rfl
    · cases hs
      rfl
  rw [heq]
  exact hm

theorem moves_commit_step (h' : WriteRule.Invariant B s')
    (hs : WriteRule.commitStep B s t v = some s') : Moves B s.lastClk s.chain s'.chain := by
  unfold WriteRule.commitStep at hs
  rw [h.view_eq] at hs
  split at hs
  · cases hs
  · rename_i hread
    obtain ⟨c', hc, rfl⟩ := Option.map_eq_some_iff.mp hs
    have hl := h.qp.lt
    have hhist : ∃ d, WriteRule.History B c' d := by
      have := h'.history
      dsimp only at this
      split at this <;> exact ⟨_, this⟩
    obtain ⟨d, hd⟩ := hhist
    have hm : Moves B s.lastClk s.chain c' := by
      refine moves_commitStep h.chain h.history hd (by omega) (fun hpc => ?_) hc
      by_contra hv
      exact hread ⟨hpc, fun hr => hv hr.1⟩
    dsimp only
    split <;> exact hm

theorem moves_abortStep (hs : WriteRule.abortStep s t = some s') :
    Moves B s.lastClk s.chain s'.chain := by
  unfold WriteRule.abortStep at hs
  obtain ⟨hab, hs⟩ := Option.ite_none_right_eq_some.mp hs
  have hpc := (h.tx t).inTx (Or.inr hab)
  dsimp only at hs
  split at hs <;> cases hs
  · exact moves_setThread h (by simp [hpc]) rfl _
  · rename_i k ks hcopies
    have hk : k ∈ (s.chain.threads t).held := by
      rw [VersionChain.held_eq (by simp [hpc]), hcopies]
      exact List.mem_cons_self ..
    have hh := (h.chain.threads t).holds k hk
    have hq : Quiet s.chain ((s.chain.setPLock (s.chain.copies k).obj none).setThread t
        { s.chain.threads t with copies := ks }) t :=
      Quiet.refl.of_copies rfl rfl rfl rfl
        (fun _ _ hw hl => VersionChain.lock_of_stamped hh.lock hh.unstamped hw hl) fun u hu => by
          rw [VersionChain.setThread_threads, if_neg hu]
          rfl
    refine moves_calm h.chain hq (.of_wss rfl (by simp [hpc]) ?_) fun _ _ => Or.inl rfl
    dsimp only [WriteRule.State.giveBack, WriteRule.State.setSlot]
    rw [VersionChain.setThread_threads, if_pos rfl]
    show takenClk (s.chain.threads t).pc = none
    rw [hpc]
    rfl

omit h

/-! ### The readers -/

/-- Nothing is written to the original master of the object while the transaction runs: it is
the current one, or the current entry is too new to be written back. -/
def OrgOk (B : ℕ) (s : WriteRule.State) (u o : ℕ) : Prop :=
  s.npCurAct o = .org ∨ ∃ e, s.npCurAct o = .entry e ∧ s.qp2 + B < (s.entries e).ckptSClk ∧
    (s.began u = s.round → s.phase ≠ .clock ∧ s.phase ≠ .wait)

/-- What a step leaves to the running transactions.  Of the masters of an object that has a
tombstone, nothing is said. -/
structure Frame (B : ℕ) (s s' : WriteRule.State) : Prop where
  moves : Moves B s.lastClk s.chain s'.chain
  lastClk : s.lastClk ≤ s'.lastClk
  lastCkpt : s.lastCkpt ≤ s'.lastCkpt
  active : ∀ u, s'.Active u → SameTx s s' u ∨ NewTx B s s' u
  safe : ∀ u k, SameTx s s' u → Safe s u k → Safe s' u k
  entry : ∀ u e, SameTx s s' u → SafeEntry s u e →
    SafeEntry s' u e ∧ (s'.entries e).ver = (s.entries e).ver
  tombstoned : ∀ o, s.Tombstoned o → s'.Tombstoned o
  cur : ∀ o n, ¬ s'.Tombstoned o → s.curVer o = some n → ∃ m, s'.curVer o = some m ∧
    (s'.chain.copies n).wrtClk ≤ (s'.chain.copies m).wrtClk
  org : ∀ u o, ¬ s'.Tombstoned o → SameTx s s' u → OrgOk B s u o →
    OrgOk B s' u o ∧ s'.npOrgAct o = s.npOrgAct o

theorem frame_txStep (h : WriteRule.Invariant B s) (ht : TxStep B s s' t)
    (hm : Moves B s.lastClk s.chain s'.chain) : Frame B s s' where
  moves := hm
  lastClk := ht.clk.1
  lastCkpt := Nat.le_of_eq ht.rest.lastCkpt.symm
  active := fun _ ha => ht.tx_of ha
  safe := by
    rintro u k hu ⟨h1, h2, h3⟩
    have hslot := ht.slot_eq h h1
    refine ⟨(hm.old k h1).1, ?_, ?_⟩
    · rw [hslot]
      exact h2
    · rw [hslot, hu.began]
      exact h3
  entry := by
    rintro u e hu ⟨h1, h2, h3⟩
    rw [ht.rest.entries]
    refine ⟨⟨?_, ?_, ?_⟩, rfl⟩
    · rw [ht.rest.numEntries]
      exact h1
    · rw [ht.rest.entries]
      exact h2
    · rw [ht.rest.entries, hu.began]
      exact h3
  tombstoned := fun _ => (ht.sameMasters h).tombstoned
  cur := by
    intro o n _ hn
    refine ⟨n, ?_, Nat.le_refl _⟩
    rw [(ht.sameMasters h).curVer]
    exact hn
  org := by
    intro u o _ hu ho
    refine ⟨?_, by rw [ht.rest.npOrgAct]⟩
    unfold OrgOk
    rw [ht.rest.npCurAct, ht.rest.qp2, ht.rest.entries, hu.began, ht.rest.round, ht.rest.phase]
    exact ho

/-- The threads and their clocks are left alone. -/
structure SameThreads (s s' : WriteRule.State) : Prop where
  copies : s'.chain.copies = s.chain.copies
  wss : s'.chain.wss = s.chain.wss
  threads : s'.chain.threads = s.chain.threads
  aborting : s'.aborting = s.aborting
  began : s'.began = s.began

theorem SameThreads.active (hm : SameThreads s s') (ha : s'.Active u) : SameTx s s' u := by
  unfold WriteRule.State.Active at ha
  rw [hm.threads, hm.aborting] at ha
  exact ⟨ha, by rw [hm.began], by rw [hm.threads]⟩

/-- The steps of the QP thread and of the reclamations. -/
theorem frame_of (hm : SameThreads s s') (hclk : s.lastClk ≤ s'.lastClk)
    (hckpt : s.lastCkpt ≤ s'.lastCkpt)
    (hsafe : ∀ u k, s.Active u → Safe s u k → (s'.slot k).freed = false ∧
      ∀ r, (s'.slot k).passed = some r → s.began u ≤ r)
    (hentry : ∀ u e, s.Active u → SafeEntry s u e → e < s'.numEntries ∧
      (s'.entries e).freed = false ∧ (∀ r, (s'.entries e).passed = some r → s.began u ≤ r) ∧
        (s'.entries e).ver = (s.entries e).ver)
    (htomb : ∀ o, s.Tombstoned o → s'.Tombstoned o)
    (hcur : ∀ o n, ¬ s'.Tombstoned o → s.curVer o = some n → ∃ m, s'.curVer o = some m ∧
      (s.chain.copies n).wrtClk ≤ (s.chain.copies m).wrtClk)
    (horg : ∀ u o, ¬ s'.Tombstoned o → s.Active u → OrgOk B s u o →
      OrgOk B s' u o ∧ s'.npOrgAct o = s.npOrgAct o) :
    Frame B s s' where
  moves := moves_same hm.copies hm.wss hm.threads
  lastClk := hclk
  lastCkpt := hckpt
  active := fun _ ha => Or.inl (hm.active ha)
  safe := by
    intro u k hu hk
    obtain ⟨h1, h2⟩ := hsafe u k hu.active hk
    refine ⟨?_, h1, ?_⟩
    · rw [hm.copies]
      exact hk.inserted
    · rw [hm.began]
      exact h2
  entry := by
    intro u e hu he
    obtain ⟨h1, h2, h3, h4⟩ := hentry u e hu.active he
    refine ⟨⟨h1, h2, ?_⟩, h4⟩
    rw [hm.began]
    exact h3
  tombstoned := htomb
  cur := by
    rw [hm.copies]
    exact hcur
  org := fun u o hb hu ho => horg u o hb hu.active ho

end TimeStone.SnapshotRead
