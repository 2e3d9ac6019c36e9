/-
What the steps of the transactions leave to a reader, in the version chains.

A version is `Unseen` at a local clock when its commit clock is not before it, or will not be:
`get_wrt_clk` never finds it in the snapshot.  A version that enters its chain is unseen by all
transactions that run, because its commit reads the clock after that.

* `Announced` — a commit clock is in `pending_wrt_clk` before it is in `wrt_clk`;
* `Prevs` — `wrt_clk_prev` is the clock of the next newer version;
* `Moves` — what a step does to the versions, for a reader;
* `moves_lockStep`, `moves_commitStep` — the steps of a thread.
-/
import TimeStone.WriteRuleHistory

namespace TimeStone.SnapshotRead

open VersionChain (Inv Quiet Inserts Stamps Entering Pc)
open WriteRule (History Origin held_wrtClk)

variable {B l : ℕ} {c c' c₁ : VersionChain.State} {d d' : ℕ → Option Origin}
  {t u o k j n w W x : ℕ}

/-- The clock that a commit has read, and that is not in its write set yet. -/
def takenClk : Pc → Option ℕ
  | .gotClock W | .publish W => some W
  | _ => none

/-- A transaction with the local clock `x` does not see the version `k`, and will not. -/
structure Unseen (B : ℕ) (c : VersionChain.State) (k x : ℕ) : Prop where
  clk : x ≤ (c.wss (c.copies k).ws).wrtClk + B
  taken : ∀ u W, (c.threads u).ws = some (c.copies k).ws → takenClk (c.threads u).pc = some W →
    x ≤ W + B

/-- `pending_wrt_clk` is the commit clock from the announcement on. -/
structure Announced (c : VersionChain.State) : Prop where
  ws : ∀ w, (c.wss w).pendingWrtClk = (c.wss w).wrtClk ∨
    ∃ u W, (c.threads u).ws = some w ∧ (c.threads u).pc = .publish W
  publish : ∀ u w W, (c.threads u).ws = some w → (c.threads u).pc = .publish W →
    (c.wss w).pendingWrtClk = W

def Prevs (c : VersionChain.State) : Prop :=
  ∀ k, (c.copies k).inserted = true → (c.copies k).wrtClkPrev ≠ maxVersion →
    ∃ n, (c.copies n).inserted = true ∧ (c.copies n).pCopy = some k ∧
      (c.copies n).wrtClk = (c.copies k).wrtClkPrev

/-- What a step does to the versions, when the last reading of the clock was `l`. -/
structure Moves (B l : ℕ) (c c' : VersionChain.State) : Prop where
  old : ∀ k, (c.copies k).inserted = true → (c'.copies k).inserted = true ∧
    (c'.copies k).obj = (c.copies k).obj ∧ (c'.copies k).ws = (c.copies k).ws ∧
      (c'.copies k).pCopy = (c.copies k).pCopy
  stamp : ∀ k, (c.copies k).inserted = true → (c.copies k).wrtClk ≠ maxVersion →
    (c'.copies k).wrtClk = (c.copies k).wrtClk
  order : ∀ j k, (c.copies j).inserted = true → (c.copies k).inserted = true →
    (c.copies j).obj = (c.copies k).obj → (c.copies j).wrtClk ≤ (c.copies k).wrtClk →
      (c'.copies j).wrtClk ≤ (c'.copies k).wrtClk
  once : ∀ w < c.numWss, (c.wss w).wrtClk ≠ maxVersion → (c'.wss w).wrtClk = (c.wss w).wrtClk
  unseen : ∀ k x, (c.copies k).inserted = true → x ≤ l → Unseen B c k x → Unseen B c' k x
  new : ∀ k, (c.copies k).inserted = false → (c'.copies k).inserted = true →
    (c'.copies k).wrtClk = maxVersion ∧ (∀ x ≤ l, Unseen B c' k x) ∧
      ((c'.copies k).pCopy = none → c.pCopy (c'.copies k).obj = none)
  announced : Announced c → Announced c'
  prevs : Prevs c → Prevs c'

/-! ### Write sets -/

/-- How the clocks of the write sets change. -/
structure Clocks (B l : ℕ) (c c' : VersionChain.State) : Prop where
  clk : ∀ w < c.numWss, (c'.wss w).wrtClk = (c.wss w).wrtClk ∨
    ∃ u W, (c.threads u).ws = some w ∧ (c.threads u).pc = .publish W ∧ (c'.wss w).wrtClk = W
  taken : ∀ u w W, w < c.numWss → (c'.threads u).ws = some w →
    takenClk (c'.threads u).pc = some W →
      (c.threads u).ws = some w ∧ takenClk (c.threads u).pc = some W ∨ l ≤ W + B

theorem ws_lt (hi : Inv B c) (hk : (c.copies k).inserted = true) : (c.copies k).ws < c.numWss :=
  hi.chains.ws k (hi.chains.alloc k hk).1

/-- A write set is that of one thread. -/
theorem ws_thread (hi : Inv B c) (ht : (c.threads t).ws = some w) (hu : (c.threads u).ws = some w) :
    u = t := by
  rw [← ((hi.threads u).ws w hu).2]
  exact ((hi.threads t).ws w ht).2

/-- While a commit has its clock but is not published, its write set has none. -/
theorem ws_wrtClk (hi : Inv B c) (ht : (c.threads t).ws = some w)
    (hW : takenClk (c.threads t).pc = some W) : (c.wss w).wrtClk = maxVersion ∧ W < maxVersion := by
  have hp := (hi.threads t).pc
  cases hpc : (c.threads t).pc with
  | gotClock V =>
    rw [hpc] at hp hW
    obtain rfl := Option.some_inj.mp hW
    exact ⟨hp.2.1 w ht, hp.2.2.2⟩
  | publish V =>
    rw [hpc] at hp hW
    obtain rfl := Option.some_inj.mp hW
    exact ⟨hp.2.1 w ht, hp.2.2.2⟩
  | _ =>
    rw [hpc] at hW
    cases hW

theorem Unseen.next (h : Unseen B c k x) (hc : Clocks B l c c') (hx : x ≤ l)
    (hlt : (c.copies k).ws < c.numWss) (hws : (c'.copies k).ws = (c.copies k).ws) :
    Unseen B c' k x := by
  constructor
  · rw [hws]
    rcases hc.clk _ hlt with h1 | ⟨u, W, h1, h2, h3⟩
    · rw [h1]
      exact h.clk
    · -- the clock that was taken is published
      rw [h3]
      exact h.taken u W h1 (by rw [h2]; rfl)
  · rw [hws]
    intro u W hu hW
    rcases hc.taken u _ W hlt hu hW with ⟨h1, h2⟩ | h1
    · exact h.taken u W h1 h2
    · omega

theorem Clocks.once (hc : Clocks B l c c') (hi : Inv B c) (hlt : w < c.numWss)
    (hne : (c.wss w).wrtClk ≠ maxVersion) : (c'.wss w).wrtClk = (c.wss w).wrtClk := by
  rcases hc.clk w hlt with h1 | ⟨u, W, h1, h2, -⟩
  · exact h1
  · exact absurd (ws_wrtClk (W := W) hi h1 (by rw [h2]; rfl)).1 hne

/-- A step without a commit clock. -/
structure Calm (c c' : VersionChain.State) (t : ℕ) : Prop where
  wss : ∀ w, c'.wss w = c.wss w ∨
    c.numWss ≤ w ∧ (c'.wss w).pendingWrtClk = (c'.wss w).wrtClk
  pc : ∀ W, (c.threads t).pc ≠ .publish W
  taken : takenClk (c'.threads t).pc = none

theorem Calm.of_wss (hwss : c'.wss = c.wss) (hpc : ∀ W, (c.threads t).pc ≠ .publish W)
    (hpc' : takenClk (c'.threads t).pc = none) : Calm c c' t :=
  ⟨fun w => Or.inl (by rw [hwss]), hpc, hpc'⟩

theorem Calm.clocks (h : Calm c c' t) (hthr : ∀ u, u ≠ t → c'.threads u = c.threads u) :
    Clocks B l c c' := by
  constructor
  · intro w hw
    rcases h.wss w with h1 | ⟨h1, -⟩
    · exact Or.inl (by rw [h1])
    · omega
  · intro u w W _ hu hW
    by_cases hut : u = t
    · rw [hut, h.taken] at hW
      cases hW
    · rw [hthr u hut] at hu hW
      exact Or.inl ⟨hu, hW⟩

theorem Announced.same (ha : Announced c) (hi : Inv B c)
    (hthr : ∀ u, u ≠ t → c'.threads u = c.threads u)
    (hpc : ∀ W, (c.threads t).pc ≠ .publish W) (hpc' : ∀ W, (c'.threads t).pc ≠ .publish W)
    (hwss : ∀ w, c'.wss w = c.wss w ∨
      c.numWss ≤ w ∧ (c'.wss w).pendingWrtClk = (c'.wss w).wrtClk) : Announced c' := by
  constructor
  · intro w
    rcases hwss w with h1 | ⟨-, h1⟩
    · rw [h1]
      rcases ha.ws w with h2 | ⟨u, W, h2, h3⟩
      · exact Or.inl h2
      · have hut : u ≠ t := by
          rintro rfl
          exact hpc W h3
        refine Or.inr ⟨u, W, ?_⟩
        rw [hthr u hut]
        exact ⟨h2, h3⟩
    · exact Or.inl h1
  · intro u w W hu hW
    have hut : u ≠ t := by
      rintro rfl
      exact hpc' W hW
    rw [hthr u hut] at hu hW
    rcases hwss w with h1 | ⟨h1, -⟩
    · rw [h1]
      exact ha.publish u w W hu hW
    · have := ((hi.threads u).ws w hu).1
      omega

theorem Calm.announced (h : Calm c c' t) (hthr : ∀ u, u ≠ t → c'.threads u = c.threads u)
    (ha : Announced c) (hi : Inv B c) : Announced c' := by
  refine ha.same hi hthr h.pc (fun W hW => ?_) h.wss
  have := h.taken
  rw [hW] at this
  cases this

/-! ### Versions -/

theorem moves_quiet (hi : Inv B c) (hq : Quiet c c' t) (hc : Clocks B l c c')
    (ha : Announced c → Announced c')
    (hprev : ∀ k, (c.copies k).inserted = true →
      (c'.copies k).wrtClkPrev = (c.copies k).wrtClkPrev ∨
        (c'.copies k).wrtClkPrev = maxVersion) : Moves B l c c' := by
  have halloc : ∀ j, (c.copies j).inserted = true → j < c.numCopies :=
    fun j hj => (hi.chains.alloc j hj).1
  constructor
  · intro k hk
    rw [hq.inserted, hq.obj k (halloc k hk), hq.ws k (halloc k hk), hq.link k hk]
    exact ⟨hk, rfl, rfl, rfl⟩
  · exact fun k hk _ => hq.wrtClk k (halloc k hk)
  · intro j k hj hk _ hle
    rw [hq.wrtClk j (halloc j hj), hq.wrtClk k (halloc k hk)]
    exact hle
  · exact fun w hw hne => hc.once hi hw hne
  · exact fun k x hk hx h => h.next hc hx (ws_lt hi hk) (hq.ws k (halloc k hk))
  · intro k hk hk'
    rw [hq.inserted, hk] at hk'
    cases hk'
  · exact ha
  · intro hp k hk hne
    rw [hq.inserted] at hk
    -- `wrt_clk_prev` stays, or it is reset with the chain
    rcases hprev k hk with h1 | h1
    · rw [h1] at hne ⊢
      obtain ⟨n, h2, h3, h4⟩ := hp k hk hne
      refine ⟨n, ?_, ?_, ?_⟩
      · rw [hq.inserted]
        exact h2
      · rw [hq.link n h2]
        exact h3
      · rw [hq.wrtClk n (halloc n h2)]
        exact h4
    · exact absurd h1 hne

theorem moves_calm (hi : Inv B c) (hq : Quiet c c' t) (h : Calm c c' t)
    (hprev : ∀ k, (c.copies k).inserted = true →
      (c'.copies k).wrtClkPrev = (c.copies k).wrtClkPrev ∨
        (c'.copies k).wrtClkPrev = maxVersion) : Moves B l c c' :=
  moves_quiet hi hq (h.clocks hq.threads) (fun ha => h.announced hq.threads ha hi) hprev

/-- The copy enters the chain. -/
theorem moves_insert (hi : Inv B c) (he : Entering c t k) (hins : Inserts c c₁ k)
    (hcop : c'.copies = c₁.copies) (hwss : c'.wss = c.wss)
    (hthr : ∀ u, u ≠ t → c'.threads u = c.threads u) {old : Option ℕ} {ks : List ℕ}
    (hpc : (c.threads t).pc = .moveCas k old ks) (hpc' : takenClk (c'.threads t).pc = none)
    (hl : l ≤ maxVersion) : Moves B l c c' := by
  have hcalm : Calm c c' t := .of_wss hwss (by simp [hpc]) hpc'
  have hc : Clocks B l c c' := hcalm.clocks hthr
  have hfields : ∀ j, (c'.copies j).obj = (c.copies j).obj ∧ (c'.copies j).ws = (c.copies j).ws ∧
      (c'.copies j).wrtClk = (c.copies j).wrtClk ∧ (c'.copies j).pCopy = (c.copies j).pCopy := by
    rw [hcop]
    exact hins.fields
  have hcases : ∀ j, (c'.copies j).inserted = true → j = k ∨ (c.copies j).inserted = true := by
    intro j hj
    rw [hcop] at hj
    rcases hins.cases hj with h1 | ⟨-, h1, -⟩
    · exact Or.inl h1
    · exact Or.inr h1
  constructor
  · intro j hj
    obtain ⟨h1, h2, -, h3⟩ := hfields j
    refine ⟨?_, h1, h2, h3⟩
    rw [hcop, hins.other j (he.ne hj)]
    exact hj
  · exact fun j _ _ => (hfields j).2.2.1
  · intro i j _ _ _ hle
    rw [(hfields i).2.2.1, (hfields j).2.2.1]
    exact hle
  · exact fun w hw hne => hc.once hi hw hne
  · exact fun j x hj hx h => h.next hc hx (ws_lt hi hj) (hfields j).2.1
  · intro j hj hj'
    rcases hcases j hj' with rfl | h1
    · have hh := (hi.threads t).holds j he.held
      refine ⟨(hfields j).2.2.1.trans (held_wrtClk hi he.held), fun x hx => ?_, fun hp => ?_⟩
      · have hu : Unseen B c j x := by
          constructor
          · -- the write set has no clock while its copies are inserted
            have hp := (hi.threads t).pc
            rw [hpc] at hp
            rw [hp.2.1 _ hh.ws]
            omega
          · intro u W hu hW
            rw [ws_thread hi hh.ws hu, hpc] at hW
            cases hW
        exact hu.next hc hx ((hi.threads t).ws _ hh.ws).1 (hfields j).2.1
      · rw [(hfields j).1, ← he.pCopy, ← (hfields j).2.2.2]
        exact hp
    · rw [hj] at h1
      cases h1
  · exact fun ha => hcalm.announced hthr ha hi
  · intro hp j hj hne
    rcases hcases j hj with rfl | h1
    · rw [hcop, hins.self] at hne
      exact absurd he.prev hne
    · have hcj : c'.copies j = c.copies j := by
        rw [hcop, hins.other j (he.ne h1)]
      rw [hcj] at hne ⊢
      obtain ⟨n, h2, h3, h4⟩ := hp j h1 hne
      refine ⟨n, ?_, ?_, ?_⟩
      · rw [hcop, hins.other n (he.ne h2)]
        exact h2
      · rw [(hfields n).2.2.2]
        exact h3
      · rw [(hfields n).2.2.1]
        exact h4

/-- The copy gets its stamp. -/
theorem moves_stamp (hi : Inv B c) (hh : History B c d) (hh' : History B c' d')
    (hst : Stamps c c₁ k W) (hcop : c'.copies = c₁.copies) (hhead : c'.pCopy = c₁.pCopy)
    (hthr : ∀ u, u ≠ t → c'.threads u = c.threads u) (hk : k ∈ (c.threads t).held)
    (hcalm : Calm c c' t) : Moves B l c c' := by
  have hc : Clocks B l c c' := hcalm.clocks hthr
  have hkm := held_wrtClk hi hk
  have hins : ∀ j, (c'.copies j).inserted = (c.copies j).inserted := by
    rw [hcop]
    exact fun j => (hst.fields j).1
  have hobj : ∀ j, (c'.copies j).obj = (c.copies j).obj := by
    rw [hcop]
    exact fun j => (hst.fields j).2.1
  have hws : ∀ j, (c'.copies j).ws = (c.copies j).ws := by
    rw [hcop]
    exact fun j => (hst.fields j).2.2.2.1
  have hclk : ∀ j, j ≠ k → (c'.copies j).wrtClk = (c.copies j).wrtClk := by
    rw [hcop]
    exact fun j hj => hst.wrtClk hj
  have hlink : ∀ j, (c.copies j).inserted = true → (c'.copies j).pCopy = (c.copies j).pCopy := by
    rw [hcop]
    exact fun j hj => hst.pCopy_eq hj
  -- a version without a stamp is the newest one
  have hnewest : ∀ j, (c.copies j).inserted = true → (c.copies j).wrtClk = maxVersion →
      c.pCopy (c.copies j).obj = some j :=
    fun j hj hm => (hi.chains.unstamped j hj fun hcom => hcom hm).1
  constructor
  · intro j hj
    rw [hins]
    exact ⟨hj, hobj j, hws j, hlink j hj⟩
  · intro j _ hne
    refine hclk j ?_
    rintro rfl
    exact hne hkm
  · intro i j hi' hj hij hle
    by_cases hjk : j = k
    · by_cases hik : i = j
      · exact Nat.le_of_eq (by rw [hik])
      · have hp : c'.pCopy (c'.copies j).obj = some j := by
          rw [hobj, hhead, hst.pCopy]
          exact hnewest j hj (hjk ▸ hkm)
        refine Nat.le_of_lt (hh'.head _ j i hp ?_ ?_ hik)
        · rw [hins]
          exact hi'
        · rw [hobj, hobj]
          exact hij
    · rw [hclk j hjk]
      by_cases hik : i = k
      · -- both are the newest one
        have hm : (c.copies i).wrtClk = maxVersion := hik ▸ hkm
        have hjm := hh.le j hj
        have h1 := hnewest i hi' hm
        have h2 := hnewest j hj (by omega)
        rw [hij, h2, Option.some_inj] at h1
        exact absurd (h1.trans hik) hjk
      · rw [hclk i hik]
        exact hle
  · exact fun w hw hne => hc.once hi hw hne
  · exact fun j x hj hx h => h.next hc hx (ws_lt hi hj) (hws j)
  · intro j hj hj'
    rw [hins, hj] at hj'
    cases hj'
  · exact fun ha => hcalm.announced hthr ha hi
  · intro hp j hj hne
    rw [hins] at hj
    by_cases hold : (c.copies k).inserted = true ∧ (c.copies k).pCopy = some j
    · -- the next older version records the stamp
      refine ⟨k, ?_, ?_, ?_⟩
      · rw [hins]
        exact hold.1
      · rw [hlink k hold.1]
        exact hold.2
      · have hjk : j ≠ k := by
          rintro rfl
          exact (hi.chains.link j j hold.1 hold.2).committed hkm
        rw [hcop, hst.self.1, hst.old j hjk hold.1 hold.2]
    · have hprev : (c'.copies j).wrtClkPrev = (c.copies j).wrtClkPrev := by
        by_cases hjk : j = k
        · rw [hcop, hjk]
          exact hst.self.2.2.2.2.2.2.1
        · rw [hcop, hst.other j hjk fun h1 h2 => hold ⟨h1, h2⟩]
      rw [hprev] at hne ⊢
      obtain ⟨n, h1, h2, h3⟩ := hp j hj hne
      have hnk : n ≠ k := by
        rintro rfl
        exact hold ⟨h1, h2⟩
      refine ⟨n, ?_, ?_, ?_⟩
      · rw [hins]
        exact h1
      · rw [hlink n h1]
        exact h2
      · rw [hclk n hnk]
        exact h3

/-! ### The steps of a thread -/

theorem calm_setPc {p : Pc} (hpc : ∀ W, (c.threads t).pc ≠ .publish W) (hp : takenClk p = none) :
    Calm c (c.setPc t p) t := by
  refine .of_wss rfl hpc ?_
  rw [VersionChain.setPc_threads, if_pos rfl]
  exact hp

theorem calm_judge {kind : VersionChain.Kind} (hpc : ∀ W, (c.threads t).pc ≠ .publish W) :
    Calm c (VersionChain.judge B c t o kind k w) t := by
  unfold VersionChain.judge
  split <;> exact calm_setPc hpc rfl

/-- A new write set has no clock. -/
theorem calm_appendBegin {kind : VersionChain.Kind} {p : Pc}
    (hpc : ∀ W, (c.threads t).pc ≠ .publish W) (hp : takenClk p = none) :
    Calm c ((VersionChain.appendBegin c t o kind).setPc t p) t := by
  refine ⟨fun w => ?_, hpc, ?_⟩
  · show (VersionChain.appendBegin c t o kind).wss w = _ ∨ _ ≤ w ∧
      ((VersionChain.appendBegin c t o kind).wss w).pendingWrtClk =
        ((VersionChain.appendBegin c t o kind).wss w).wrtClk
    unfold VersionChain.appendBegin
    dsimp only
    split
    · rename_i hnone
      by_cases hw : w = c.numWss
      · rw [hnone, Option.getD_none, hw, Function.update_self]
        exact Or.inr ⟨Nat.le_refl _, rfl⟩
      · rw [hnone, Option.getD_none, Function.update_of_ne hw]
        exact Or.inl rfl
    · exact Or.inl rfl
  · rw [VersionChain.setPc_threads, if_pos rfl]
    exact hp

theorem moves_lockStep (hi : Inv B c) (hs : VersionChain.lockStep B c t = some c') :
    Moves B l c c' := by
  have hcalm : Calm c c' t ∧ ∀ k, (c.copies k).inserted = true → c'.copies k = c.copies k := by
    unfold VersionChain.lockStep at hs
    split at hs <;> rename_i hpc
    · split at hs <;> cases hs <;> exact ⟨calm_setPc (by simp [hpc]) rfl, fun _ _ => rfl⟩
    · split at hs <;> cases hs
      · refine ⟨calm_judge (by simp [hpc]), fun _ _ => ?_⟩
        unfold VersionChain.judge
        split <;> rfl
      · exact ⟨calm_setPc (by simp [hpc]) rfl, fun _ _ => rfl⟩
    · dsimp only at hs
      split at hs <;> cases hs
      · refine ⟨calm_judge (by simp [hpc]), fun _ _ => ?_⟩
        unfold VersionChain.judge
        split <;> rfl
      · exact ⟨calm_setPc (by simp [hpc]) rfl, fun _ _ => rfl⟩
    · dsimp only at hs
      split at hs <;> cases hs
      refine ⟨calm_judge (by simp [hpc]), fun _ _ => ?_⟩
      unfold VersionChain.judge
      split <;> rfl
    · have hnew : ∀ {o kind} k, (c.copies k).inserted = true →
          (VersionChain.appendBegin c t o kind).copies k = c.copies k := fun k hk =>
        VersionChain.appendBegin_copies (Nat.ne_of_lt (hi.chains.alloc k hk).1)
      dsimp only at hs
      split at hs <;> cases hs <;> exact ⟨calm_appendBegin (by simp [hpc]) rfl, hnew⟩
    · split at hs <;> cases hs
      · exact ⟨.of_wss rfl (by simp [hpc]) (by rw [VersionChain.setPc_threads, if_pos rfl]; rfl),
          fun _ _ => rfl⟩
      · exact ⟨calm_setPc (by simp [hpc]) rfl, fun _ _ => rfl⟩
    · split at hs <;> cases hs
      · exact ⟨.of_wss rfl (by simp [hpc]) (by rw [VersionChain.setPc_threads, if_pos rfl]; rfl),
          fun _ _ => rfl⟩
      · exact ⟨.of_wss rfl (by simp [hpc])
          (by rw [VersionChain.setThread_threads, if_pos rfl]; rfl), fun _ _ => rfl⟩
    · cases hs
  exact moves_calm hi (VersionChain.lockStep_quiet hi hs) hcalm.1
    fun k hk => Or.inl (by rw [hcalm.2 k hk])

/-- The clock of a commit is after the last reading. -/
theorem clocks_read (hthr : ∀ u, u ≠ t → c'.threads u = c.threads u) {v : ℕ}
    (hpc : (c'.threads t).pc = .gotClock v) (hwss : c'.wss = c.wss) (hv : l ≤ v + B) :
    Clocks B l c c' := by
  constructor
  · exact fun w _ => Or.inl (by rw [hwss])
  · intro u w W _ hu hW
    by_cases hut : u = t
    · rw [hut, hpc] at hW
      obtain rfl := Option.some_inj.mp hW
      exact Or.inr hv
    · rw [hthr u hut] at hu hW
      exact Or.inl ⟨hu, hW⟩

/-- The clock of the commit is announced. -/
theorem announced_pending (ha : Announced c) (hi : Inv B c) (hw : (c.threads t).ws = some w)
    (hpc : (c.threads t).pc = .gotClock W) :
    Announced ((c.setWs w { c.wss w with pendingWrtClk := W }).setPc t (.publish W)) := by
  have hthr : ∀ u, ((c.setWs w { c.wss w with pendingWrtClk := W }).setPc t
      (.publish W)).threads u = if u = t then { c.threads t with pc := .publish W }
        else c.threads u := fun u => VersionChain.setPc_threads
  have hwss : ∀ w', ((c.setWs w { c.wss w with pendingWrtClk := W }).setPc t (.publish W)).wss w' =
      if w' = w then { c.wss w with pendingWrtClk := W } else c.wss w' :=
    fun w' => VersionChain.setWs_wss
  constructor
  · intro w'
    rw [hwss]
    split
    · rename_i hww
      refine Or.inr ⟨t, W, ?_⟩
      rw [hthr, if_pos rfl, hww]
      exact ⟨hw, rfl⟩
    · rcases ha.ws w' with h1 | ⟨u, V, h1, h2⟩
      · exact Or.inl h1
      · have hut : u ≠ t := by
          rintro rfl
          rw [hpc] at h2
          cases h2
        refine Or.inr ⟨u, V, ?_⟩
        rw [hthr, if_neg hut]
        exact ⟨h1, h2⟩
  · intro u w' V hu hV
    rw [hthr] at hu hV
    rw [hwss]
    split at hu
    · rename_i hut
      rw [if_pos hut] at hV
      obtain rfl := Pc.publish.inj hV
      rw [if_pos (Option.some_inj.mp (hu.symm.trans hw))]
    · rename_i hut
      rw [if_neg hut] at hV
      have hww : w' ≠ w := by
        rintro rfl
        exact hut (ws_thread hi hw hu)
      rw [if_neg hww]
      exact ha.publish u w' V hu hV

/-- The commit is published. -/
theorem announced_wrtClk (ha : Announced c) (hi : Inv B c) (hw : (c.threads t).ws = some w)
    (hpc : (c.threads t).pc = .publish W) {ks : List ℕ} :
    Announced ((c.setWs w { c.wss w with wrtClk := W }).setPc t (.stamp W ks)) := by
  have hthr : ∀ u, ((c.setWs w { c.wss w with wrtClk := W }).setPc t (.stamp W ks)).threads u =
      if u = t then { c.threads t with pc := .stamp W ks } else c.threads u :=
    fun u => VersionChain.setPc_threads
  have hwss : ∀ w', ((c.setWs w { c.wss w with wrtClk := W }).setPc t (.stamp W ks)).wss w' =
      if w' = w then { c.wss w with wrtClk := W } else c.wss w' :=
    fun w' => VersionChain.setWs_wss
  constructor
  · intro w'
    rw [hwss]
    split
    · exact Or.inl (ha.publish t w W hw hpc)
    · rename_i hww
      rcases ha.ws w' with h1 | ⟨u, V, h1, h2⟩
      · exact Or.inl h1
      · have hut : u ≠ t := by
          rintro rfl
          exact hww (Option.some_inj.mp (h1.symm.trans hw))
        refine Or.inr ⟨u, V, ?_⟩
        rw [hthr, if_neg hut]
        exact ⟨h1, h2⟩
  · intro u w' V hu hV
    rw [hthr] at hu hV
    rw [hwss]
    split at hu
    · rename_i hut
      rw [if_pos hut] at hV
      cases hV
    · rename_i hut
      rw [if_neg hut] at hV
      have hww : w' ≠ w := by
        rintro rfl
        exact hut (ws_thread hi hw hu)
      rw [if_neg hww]
      exact ha.publish u w' V hu hV

theorem commitStep_others (hi : Inv B c) {v : ℕ}
    (hs : VersionChain.commitStep B c t v = some c') (hu : u ≠ t) :
    c'.threads u = c.threads u := by
  rcases VersionChain.commitStep_cases hi hs with hq | ⟨k, ks, -, rfl⟩ | ⟨W, k, ks, hpc, rfl⟩
  · exact hq.threads u hu
  · rw [VersionChain.setPc_threads, if_neg hu]
    rfl
  · rw [VersionChain.setPc_threads, if_neg hu, (hi.stamps_held hpc).2.1.threads]

/-- The write sets and `wrt_clk_prev` in a step of a commit that is not a stamp. -/
theorem commitStep_clocks (hi : Inv B c) {v : ℕ} (hv : (c.threads t).pc = .move [] → l ≤ v + B)
    (hne : ∀ W k ks, (c.threads t).pc ≠ .stamp W (k :: ks))
    (hs : VersionChain.commitStep B c t v = some c') :
    (Clocks B l c c' ∧ (Announced c → Announced c')) ∧ ∀ k, (c.copies k).inserted = true →
      (c'.copies k).wrtClkPrev = (c.copies k).wrtClkPrev ∨
        (c'.copies k).wrtClkPrev = maxVersion := by
  have hthr : ∀ u, u ≠ t → c'.threads u = c.threads u := fun u hu => commitStep_others hi hs hu
  have hcalm : Calm c c' t → Clocks B l c c' ∧ (Announced c → Announced c') :=
    fun h => ⟨h.clocks hthr, fun ha => h.announced hthr ha hi⟩
  have hpc' : ∀ {c₁ : VersionChain.State} {p : Pc}, takenClk p = none →
      takenClk ((c₁.setPc t p).threads t).pc = none := by
    intro c₁ p hp
    rw [VersionChain.setPc_threads, if_pos rfl]
    exact hp
  unfold VersionChain.commitStep at hs
  dsimp only at hs
  split at hs <;> rename_i hpc
  · split at hs <;> cases hs
    · refine ⟨hcalm (.of_wss rfl (by simp [hpc]) (hpc' rfl)), fun j _ => ?_⟩
      -- the copy that is to be inserted becomes the newest version
      show ((c.setCopy _ _).copies j).wrtClkPrev = _ ∨ ((c.setCopy _ _).copies j).wrtClkPrev = _
      rw [VersionChain.setCopy_copies]
      split
      · exact Or.inr rfl
      · exact Or.inl rfl
    · exact ⟨hcalm (calm_setPc (by simp [hpc]) rfl), fun _ _ => Or.inl rfl⟩
    · exact ⟨hcalm (calm_setPc (by simp [hpc]) rfl), fun _ _ => Or.inl rfl⟩
  · cases hs
    refine ⟨hcalm (.of_wss rfl (by simp [hpc]) (hpc' rfl)), fun j _ => Or.inl ?_⟩
    show ((c.setCopy _ _).copies j).wrtClkPrev = _
    rw [VersionChain.setCopy_copies]
    split
    · rename_i hj
      rw [hj]
    · rfl
  · split at hs <;> cases hs
    · refine ⟨hcalm (.of_wss rfl (by simp [hpc]) (hpc' rfl)), fun j _ => Or.inl ?_⟩
      show ((c.setCopy _ _).copies j).wrtClkPrev = _
      rw [VersionChain.setCopy_copies]
      split
      · rename_i hj
        rw [hj]
      · rfl
    · exact ⟨hcalm (calm_setPc (by simp [hpc]) rfl), fun _ _ => Or.inl rfl⟩
  · split at hs <;> cases hs
    have hpcv : ((c.setPc t (.gotClock v)).threads t).pc = .gotClock v := by
      rw [VersionChain.setPc_threads, if_pos rfl]
    exact ⟨⟨clocks_read hthr hpcv rfl (hv hpc), fun ha => ha.same hi hthr (by simp [hpc])
      (by simp) fun _ => Or.inl rfl⟩, fun _ _ => Or.inl rfl⟩
  · rename_i W
    obtain ⟨w, hw, rfl⟩ := Option.map_eq_some_iff.mp hs
    refine ⟨⟨⟨fun w' _ => Or.inl ?_, fun u w' V _ hu hV => Or.inl ?_⟩,
      fun ha => announced_pending ha hi hw hpc⟩, fun _ _ => Or.inl rfl⟩
    · show ((c.setWs w _).wss w').wrtClk = _
      rw [VersionChain.setWs_wss]
      split
      · rename_i hww
        rw [hww]
      · rfl
    · by_cases hut : u = t
      · rw [hut, VersionChain.setPc_threads, if_pos rfl] at hu hV
        rw [hut, hpc]
        exact ⟨hu, hV⟩
      · rw [hthr u hut] at hu hV
        exact ⟨hu, hV⟩
  · rename_i W
    obtain ⟨w, hw, rfl⟩ := Option.map_eq_some_iff.mp hs
    refine ⟨⟨⟨fun w' _ => ?_, fun u w' V _ hu hV => Or.inl ?_⟩,
      fun ha => announced_wrtClk ha hi hw hpc⟩, fun _ _ => Or.inl rfl⟩
    · by_cases hww : w' = w
      · refine Or.inr ⟨t, W, hww ▸ hw, hpc, ?_⟩
        show ((c.setWs w _).wss w').wrtClk = _
        rw [VersionChain.setWs_wss, if_pos hww]
      · refine Or.inl ?_
        show ((c.setWs w _).wss w').wrtClk = _
        rw [VersionChain.setWs_wss, if_neg hww]
    · by_cases hut : u = t
      · rw [hut, VersionChain.setPc_threads, if_pos rfl] at hV
        cases hV
      · rw [hthr u hut] at hu hV
        exact ⟨hu, hV⟩
  · exact absurd hpc (hne _ _ _)
  · cases hs
    exact ⟨hcalm (.of_wss rfl (by simp [hpc])
      (by rw [VersionChain.setThread_threads, if_pos rfl]; rfl)), fun _ _ => Or.inl rfl⟩
  · cases hs

theorem moves_commitStep (hi : Inv B c) (hh : History B c d) (hh' : History B c' d') {v : ℕ}
    (hl : l ≤ maxVersion) (hv : (c.threads t).pc = .move [] → l ≤ v + B)
    (hs : VersionChain.commitStep B c t v = some c') : Moves B l c c' := by
  have hthr : ∀ u, u ≠ t → c'.threads u = c.threads u := fun u hu => commitStep_others hi hs hu
  rcases VersionChain.commitStep_cases hi hs with hq | ⟨k, ks, hpc, hset⟩ | ⟨W, k, ks, hpc, hset⟩
  · have hne : ∀ W k ks, (c.threads t).pc ≠ .stamp W (k :: ks) := by
      intro W k ks hpc
      obtain ⟨hk, hst, -, hW⟩ := hi.stamps_held hpc
      have h1 := hq.wrtClk k ((hi.threads t).holds k hk).alloc
      rw [held_wrtClk hi hk] at h1
      unfold VersionChain.commitStep at hs
      dsimp only at hs
      rw [hpc] at hs
      cases hs
      have h2 : ((VersionChain.unlockCommit c k W).copies k).wrtClk = maxVersion := h1
      rw [hst.self.1] at h2
      omega
    obtain ⟨⟨h1, h2⟩, h3⟩ := commitStep_clocks hi hv hne hs
    exact moves_quiet hi hq h1 h2 h3
  · have he := hi.entering hpc
    refine moves_insert hi he VersionChain.inserts_moveCas (by rw [hset]; rfl) (by rw [hset]; rfl)
      hthr hpc ?_ hl
    rw [hset, VersionChain.setPc_threads, if_pos rfl]
    rfl
  · obtain ⟨hk, hst, -, -⟩ := hi.stamps_held hpc
    refine moves_stamp hi hh hh' hst (by rw [hset]; rfl) (by rw [hset]; rfl) hthr hk
      (.of_wss (by rw [hset]; exact hst.wss) (by simp [hpc]) ?_)
    rw [hset, VersionChain.setPc_threads, if_pos rfl]
    rfl

end TimeStone.SnapshotRead
