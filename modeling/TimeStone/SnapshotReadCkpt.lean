/-
What a reclamation leaves behind.

A version that a reclamation went past is below the last checkpoint, or a newer version is
below the clock of the last detection, or the checkpoint of the round has just taken it
(`Passed`).  Below the last checkpoint, the current master is at least as new as every version,
unless the object has a tombstone (`AtLeast`).  So a reader that stops there, or never comes
there, does not miss what was passed.

* `Checkpoints` — the invariant of the QP thread and of the reclamations;
* `Checkpoints.txStep` — the steps of the transactions;
* `Checkpoints.next` — the other steps, except for the barrier;
* `Checkpoints.barrier` — the checkpoint is complete when it is published.
-/
import TimeStone.SnapshotReadFrame

namespace TimeStone.SnapshotRead

open WriteRule (Master Mode Safe SafeEntry Reclaiming TxStep SameTx NewTx Masters Settled)

variable {B : ℕ} {s s' : WriteRule.State} {t u o k j n e v a r : ℕ}

/-- The current master is at least as new as the version. -/
def AtLeast (s : WriteRule.State) (k : ℕ) : Prop :=
  ¬ s.Tombstoned (s.chain.copies k).obj → ∃ n, s.curVer (s.chain.copies k).obj = some n ∧
    (s.chain.copies k).wrtClk ≤ (s.chain.copies n).wrtClk

/-- The mode of a `tvlog_reclaim_x` that is in one of its loops. -/
def mode : WriteRule.TvPc → Option Mode
  | .loop m | .tomb m _ | .tombEnq m _ | .tombMark m _ => some m
  | _ => none

/-- The checkpoint of the version is published, or is under way. -/
structure Taken (B : ℕ) (s : WriteRule.State) (k : ℕ) : Prop where
  clk : (s.chain.copies k).wrtClk + B < s.qp0
  done : (s.chain.copies k).wrtClk + B < s.lastCkpt ∨ s.phase = .reclaim .ckpt
  cur : AtLeast s k

/-- The version `n` of the object of `k` is newer, and is below the clock. -/
structure Newer (B : ℕ) (s : WriteRule.State) (k n : ℕ) : Prop where
  inserted : (s.chain.copies n).inserted = true
  obj : (s.chain.copies n).obj = (s.chain.copies k).obj
  lt : (s.chain.copies k).wrtClk < (s.chain.copies n).wrtClk
  clk : (s.chain.copies n).wrtClk + B < s.qp0

/-- Why a reclamation went past the version in the round `r`. -/
def Passed (B : ℕ) (s : WriteRule.State) (k r : ℕ) : Prop :=
  (s.chain.copies k).wrtClk + B < s.lastCkpt ∨ (∃ n, Newer B s k n) ∨
    s.phase = .reclaim .ckpt ∧ r = s.round ∧ Taken B s k

structure Checkpoints (B : ℕ) (s : WriteRule.State) : Prop where
  announced : Announced s.chain
  prevs : Prevs s.chain
  clk : ∀ t, s.Active t → (s.chain.threads t).localClk ≤ s.lastClk
  owner : ∀ k, (s.chain.copies k).inserted = true → s.owner k ∈ s.threads
  le : s.lastCkpt ≤ s.qp0
  gap : s.phase = .detected ∨ Reclaiming s → s.qp2 + B < s.qp0
  mode : ∀ t m, mode (s.tv t) = some m → s.phase = .reclaim m
  busy : ∀ t k, s.tv t = .enq k ∨ s.tv t = .detach k ∨ s.tv t = .detachCas k →
    s.phase = .reclaim .ckpt
  detached : ∀ k, (s.chain.copies k).inserted = true → (s.slot k).detached = true → Taken B s k
  passed : ∀ k r, (s.chain.copies k).inserted = true → (s.slot k).passed = some r → Passed B s k r
  below : ∀ k, (s.chain.copies k).inserted = true →
    (s.chain.copies k).wrtClk + B < s.lastCkpt → AtLeast s k
  bottom : ∀ k j, (s.chain.copies k).inserted = true → (s.chain.copies k).pCopy = none →
    (s.chain.copies j).inserted = true → (s.chain.copies j).obj = (s.chain.copies k).obj →
      (s.chain.copies j).wrtClk < (s.chain.copies k).wrtClk → AtLeast s j
  writes : ∀ t e, s.ck t = .writeback e ∨ s.ck t = .store e →
    (s.entries e).ckptSClk ≤ s.qp2 + B

/-- The version in a current master does not get older. -/
theorem AtLeast.frame (h : AtLeast s k) (hf : Frame B s s') (hm : Masters B s)
    (hk : (s.chain.copies k).inserted = true) : AtLeast s' k := by
  have hobj := (hf.moves.old k hk).2.1
  intro hb
  rw [hobj] at hb ⊢
  have hb' : ¬ s.Tombstoned (s.chain.copies k).obj := fun ht => hb (hf.tombstoned _ ht)
  obtain ⟨n, hn, hle⟩ := h hb'
  have hset := hm.settled_cur hb' hn
  obtain ⟨m, h1, h2⟩ := hf.cur _ n hb hn
  exact ⟨m, h1, Nat.le_trans (hf.moves.order k n hk hset.inserted hset.obj.symm hle) h2⟩

/-! ### The transactions -/

/-- Only a running transaction inserts copies. -/
theorem active_of_new (hi : WriteRule.Invariant B s) (ht : TxStep B s s' t)
    (hk : (s'.chain.copies k).inserted = true) (hclk : (s'.chain.copies k).wrtClk = maxVersion)
    (hheld : k ∈ (s.chain.threads t).held) : s'.Active t := by
  have hf : (s'.slot k).freed = false := by
    rcases ht.slot k ((hi.chain.threads t).holds k hheld).alloc with h1 | ⟨-, -, h1⟩
    · rw [h1]
      exact ((hi.tx t).held k hheld).1
    · rw [hk] at h1
      cases h1
  by_contra ha
  have hp := (ht.chain.threads t).pc
  -- a copy is inserted in `tvlog_commit`
  have hout : ∀ j ∈ (s'.chain.threads t).copies, (s'.chain.copies j).inserted = false := by
    rcases ht.tx.not_active ha with hpc | hpc <;> rw [hpc] at hp
    · simp [hp.1]
    · exact fun j hj => (hp.1 j hj).1
  have hno : k ∉ (s'.chain.threads t).copies := by
    intro hk'
    rw [hout k hk'] at hk
    cases hk
  rcases ht.keep k (Or.inl hheld) with (h1 | h1) | h1 | h1
  · refine hno ?_
    rcases ht.tx.not_active ha with hpc | hpc
    · rwa [VersionChain.held_eq (by simp [hpc])] at h1
    · rwa [VersionChain.held_eq (by simp [hpc])] at h1
  · rcases ht.tx.not_active ha with hpc | hpc <;> rw [hpc] at h1 <;> cases h1
  · exact h1 hclk
  · rw [hf] at h1
    cases h1

section

variable (h : Checkpoints B s) (hi : WriteRule.Invariant B s) (ht : TxStep B s s' t)
  (hm : Moves B s.lastClk s.chain s'.chain)

include h hi ht hm

theorem owner_txStep (hk : (s'.chain.copies k).inserted = true) : s'.owner k ∈ s'.threads := by
  rw [ht.rest.threads]
  by_cases hold : (s.chain.copies k).inserted = true
  · rw [ht.owner k (hi.lt hold)]
    exact h.owner k hold
  · have hheld := (ht.inserted k hk).resolve_left hold
    have hclk := (hm.new k (by simpa using hold) hk).1
    have hmine := WriteRule.Mine.alloc (Or.inl hheld) hi.chain
    rw [ht.owner k hmine.1, WriteRule.State.owner, hmine.2.1]
    rcases ht.tx_of (active_of_new hi ht hk hclk hheld) with hu | hu
    · exact (hi.qp.active t hu.active).1
    · exact hu.mem

omit h in
theorem taken_txStep (hk : (s.chain.copies k).inserted = true) (hd : Taken B s k) :
    Taken B s' k := by
  have hclk := hm.stamp k hk (by have := hd.clk; have := hi.masters.le; omega)
  constructor
  · rw [hclk, ht.rest.qp0]
    exact hd.clk
  · rw [hclk, ht.rest.lastCkpt, ht.rest.phase]
    exact hd.done
  · exact hd.cur.frame (frame_txStep hi ht hm) hi.masters hk

theorem passed_txStep (hk : (s'.chain.copies k).inserted = true)
    (hr : (s'.slot k).passed = some r) : Passed B s' k r := by
  obtain ⟨hlt, hr, -⟩ := ht.passed hi hr
  have hne : (s.chain.copies k).wrtClk ≠ maxVersion := by
    have := (hi.slots.passed k r hr).2.1
    have := hi.masters.le
    omega
  have hold : (s.chain.copies k).inserted = true := by
    rcases ht.inserted k hk with h1 | h1
    · exact h1
    · exact absurd (WriteRule.held_wrtClk hi.chain h1) hne
  unfold Passed
  rw [hm.stamp k hold hne, ht.rest.lastCkpt, ht.rest.phase, ht.rest.round]
  rcases h.passed k r hold hr with h1 | ⟨n, h1, h2, h3, h4⟩ | ⟨h1, h2, h3⟩
  · exact Or.inl h1
  · have hn := hm.stamp n h1 (by have := hi.masters.le; omega)
    refine Or.inr (Or.inl ⟨n, (hm.old n h1).1, ?_, ?_, ?_⟩)
    · rw [(hm.old n h1).2.1, (hm.old k hold).2.1]
      exact h2
    · rw [hn, hm.stamp k hold hne]
      exact h3
    · rw [hn, ht.rest.qp0]
      exact h4
  · exact Or.inr (Or.inr ⟨h1, h2, taken_txStep hi ht hm hold h3⟩)

theorem bottom_txStep (hk : (s'.chain.copies k).inserted = true)
    (hp : (s'.chain.copies k).pCopy = none) (hj : (s'.chain.copies j).inserted = true)
    (hjo : (s'.chain.copies j).obj = (s'.chain.copies k).obj)
    (hlt : (s'.chain.copies j).wrtClk < (s'.chain.copies k).wrtClk) : AtLeast s' j := by
  have hf := frame_txStep hi ht hm
  have hle := ht.history.le k hk
  have hjold : (s.chain.copies j).inserted = true := by
    by_contra hno
    have := (hm.new j (by simpa using hno) hj).1
    omega
  refine AtLeast.frame ?_ hf hi.masters hjold
  by_cases hkold : (s.chain.copies k).inserted = true
  · obtain ⟨-, h1, -, h2⟩ := hm.old k hkold
    rw [h2] at hp
    rw [(hm.old j hjold).2.1, h1] at hjo
    refine h.bottom k j hkold hp hjold hjo ?_
    by_contra hge
    have := hm.order k j hkold hjold hjo.symm (by omega)
    omega
  · obtain ⟨-, -, h1⟩ := hm.new k (by simpa using hkold) hk
    rw [(hm.old j hjold).2.1] at hjo
    have hn := h1 hp
    rw [← hjo] at hn
    exact fun hb => hi.masters.newest _ hb hn j hjold rfl

theorem Checkpoints.txStep : Checkpoints B s' := by
  have hf := frame_txStep hi ht hm
  have hqp0 := ht.rest.qp0
  have hlast := ht.rest.lastCkpt
  have hphase := ht.rest.phase
  have hle := hi.masters.le
  have hck := h.le
  -- a version below the clock of the last detection is an old one
  have hold : ∀ k, (s'.chain.copies k).inserted = true → (s'.chain.copies k).wrtClk + B < s.qp0 →
      (s.chain.copies k).inserted = true ∧
        (s'.chain.copies k).wrtClk = (s.chain.copies k).wrtClk := by
    intro k hk hlt
    rcases ht.evolves.new k hk with h1 | h1
    · exact h1
    · omega
  constructor
  · exact hm.announced h.announced
  · exact hm.prevs h.prevs
  · intro u hu
    rcases ht.tx_of hu with hu | hu
    · rw [hu.localClk]
      exact Nat.le_trans (h.clk u hu.active) ht.clk.1
    · exact hu.before
  · exact fun k hk => owner_txStep h hi ht hm hk
  · rw [hlast, hqp0]
    exact h.le
  · unfold Reclaiming
    rw [hphase, ht.rest.qp2, hqp0]
    exact h.gap
  · rw [ht.rest.tv, hphase]
    exact h.mode
  · rw [ht.rest.tv, hphase]
    exact h.busy
  · intro k hk hd
    have hd' := (ht.sameMasters hi).detached' k hd
    have hkold := hi.detaches.inserted k hd'
    exact taken_txStep hi ht hm hkold (h.detached k hkold hd')
  · exact fun k r hk hr => passed_txStep h hi ht hm hk hr
  · intro k hk hlt
    rw [hlast] at hlt
    obtain ⟨h1, h2⟩ := hold k hk (by omega)
    rw [h2] at hlt
    exact (h.below k h1 hlt).frame hf hi.masters h1
  · exact fun k j hk hp hj hjo hlt => bottom_txStep h hi ht hm hk hp hj hjo hlt
  · rw [ht.rest.ck, ht.rest.entries, ht.rest.qp2]
    exact h.writes

end

end TimeStone.SnapshotRead
