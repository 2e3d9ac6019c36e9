/-
The steps of `_ts_try_lock` and `tvlog_commit` keep the invariant.

A thread sees the chains as they are, so its steps are steps of the machine `VersionChain`.
The memcpy of `_ts_try_lock` copies the newest version; the copy is inserted only after it, and
stamped after the snapshot.

* `Invariant.dupStep` — the memcpy;
* `Invariant.lockStep` — the attempt to lock;
* `Invariant.commitStep` — the commit.
-/
import TimeStone.WriteRuleTx

namespace TimeStone.WriteRule

open VersionChain (Quiet Inserts Stamps Entering Thread Pc Plain Leaves Forward)

variable {B : ℕ} {s s' : State} {c' : VersionChain.State} {t u o k j n e i w W r q v a : ℕ}

/-! ### The memcpy -/

theorem Invariant.target_held (h : Invariant B s) (hk : (s.dup t).target = some k) :
    k ∈ (s.chain.threads t).held := by
  have ht := h.tx t
  have hne : s.dup t ≠ .idle := by
    intro hd
    rw [hd] at hk
    cases hk
  obtain ⟨-, -, hheld⟩ := ht.of_dup hne
  have hd := ht.dup
  rw [hheld]
  cases hdup : s.dup t with
  | idle => exact absurd hdup hne
  | loadAct j =>
    rw [hdup] at hd hk
    exact Option.some_inj.mp hk ▸ hd.1
  | copyAct j m =>
    rw [hdup] at hd hk
    exact Option.some_inj.mp hk ▸ hd.1
  | copyOld j i =>
    rw [hdup] at hd hk
    exact Option.some_inj.mp hk ▸ hd.1

/-- A copy that a memcpy goes to is in no chain. -/
theorem Invariant.target_fresh (h : Invariant B s) (hk : (s.dup t).target = some k) :
    (s.chain.copies k).inserted = false := by
  have hne : s.dup t ≠ .idle := by
    intro hd
    rw [hd] at hk
    cases hk
  obtain ⟨-, hpc, hheld⟩ := (h.tx t).of_dup hne
  have hp := (h.chain.threads t).pc
  rw [hpc] at hp
  exact (hp.1 k (hheld ▸ h.target_held hk)).1

theorem Invariant.duplicated (h : Invariant B s) (hk : (s.dup t).target = some k) {x : Option ℕ}
    (hf : Follows B s.chain k ⟨x, (s.chain.threads t).localClk⟩) :
    TxStep B s (s.duplicated t k x) t := by
  have ht := h.tx t
  have hne : s.dup t ≠ .idle := by
    intro hd
    rw [hd] at hk
    cases hk
  obtain ⟨hact, hpc, hheld⟩ := ht.of_dup hne
  have hkh := h.target_held hk
  have hdup : (s.duplicated t k x).dup t = .idle := Function.update_self ..
  have hsafe : ∀ j, Safe s t j → Safe (s.duplicated t k x) t j :=
    fun j hj => ⟨hj.inserted, hj.kept, hj.passed⟩
  refine TxStep.of_quiet h (Space.same h.slots rfl rfl rfl) (by constructor <;> rfl)
    ⟨fun u hu => Function.update_of_ne hu .., fun _ _ => rfl, fun _ _ => rfl⟩ h.chain h.plain
    Quiet.refl (h.history.duplicated (h.target_fresh hk) hf) ?_ (fun _ hj => Or.inl hj)
    ⟨Nat.le_refl _, h.qp.lt⟩ (fun _ => Or.inl ⟨hact, rfl, rfl⟩) (fun _ _ hu => hu) ?_
  · intro j
    by_cases hjk : j = k
    · exact Or.inr (hjk ▸ hkh)
    · exact Or.inl (Function.update_of_ne hjk ..)
  · constructor
    · exact fun _ j hj => hsafe j (ht.ptr hact j hj)
    · exact fun _ i hi hins j hj => hsafe j (ht.link hact i hi hins j hj)
    · intro i hi
      have hown : (s.chain.threads t).pc.own = some i := hi
      rw [hpc] at hown
      cases hown
    · intro i hi
      obtain ⟨h1, h2⟩ := ht.held i hi
      refine ⟨h1, Or.inr ?_⟩
      by_cases hik : i = k
      · exact ⟨_, by rw [hik]; exact Function.update_self .., rfl⟩
      · rcases h2 with h2 | ⟨y, h2, h3⟩
        · rw [hk, Option.some_inj] at h2
          exact absurd h2.symm hik
        · exact ⟨y, (Function.update_of_ne hik ..).trans h2, h3⟩
    · rw [hdup]
      trivial
    · exact fun _ => hpc
    · exact fun _ => hdup

theorem Invariant.dupStep (h : Invariant B s) {g : Option ℕ} (hs : dupStep s t g = some s') :
    TxStep B s s' t := by
  have ht := h.tx t
  have hd := ht.dup
  unfold WriteRule.dupStep at hs
  split at hs
  · cases hs
  · -- the load of `np_cur_act`
    rename_i k hdup
    cases hs
    rw [hdup] at hd
    obtain ⟨hact, hpc, hheld⟩ := ht.of_dup (by rw [hdup]; exact nofun)
    set m := s.npCurAct (s.chain.copies k).obj with hm
    have hdup' : (s.setDup t (.copyAct k m)).dup t = .copyAct k m := Function.update_self ..
    have hsafe : ∀ j, Safe s t j → Safe (s.setDup t (.copyAct k m)) t j :=
      fun j hj => ⟨hj.inserted, hj.kept, hj.passed⟩
    refine TxStep.of_quiet h (Space.same h.slots rfl rfl rfl) (by constructor <;> rfl)
      ⟨fun u hu => Function.update_of_ne hu .., fun _ _ => rfl, fun _ _ => rfl⟩ h.chain h.plain
      Quiet.refl h.history (fun _ => Or.inl rfl) (fun _ hj => Or.inl hj) ⟨Nat.le_refl _, h.qp.lt⟩
      (fun _ => Or.inl ⟨hact, rfl, rfl⟩) (fun _ _ hu => hu) ?_
    constructor
    · exact fun _ j hj => hsafe j (ht.ptr hact j hj)
    · exact fun _ i hi hins j hj => hsafe j (ht.link hact i hi hins j hj)
    · intro i hi
      have hown : (s.chain.threads t).pc.own = some i := hi
      rw [hpc] at hown
      cases hown
    · intro i hi
      rw [hdup']
      have := ht.held i hi
      rw [hdup] at this
      exact this
    · rw [hdup']
      refine ⟨hd.1, hd.2, rfl, fun e he => ?_⟩
      have hsafe := h.safe_cur (t := t) (h.not_tombstoned (hheld ▸ hd.1)) (hm.symm.trans he)
      exact ⟨hsafe.lt, hsafe.kept, hsafe.passed⟩
    · exact fun _ => hpc
    · intro hab
      have hab' : s.aborting t = true := hab
      rw [hact.2] at hab'
      cases hab'
  · -- the memcpy from the master
    rename_i k m hdup
    cases hs
    have hk : (s.dup t).target = some k := by rw [hdup]; rfl
    obtain ⟨hact, hpc, hheld⟩ := ht.of_dup (by rw [hdup]; exact nofun)
    rw [hdup] at hd
    obtain ⟨h1, h2, h3, h4⟩ := hd
    refine h.duplicated hk ?_
    have hver : s.masterVer (s.chain.copies k).obj g m = s.curVer (s.chain.copies k).obj := by
      rw [← h3]
      cases m with
      | org => rfl
      | entry e =>
        -- the entry was not enqueued as a tombstone: a version was checkpointed there
        have hset := h.masters.settled_cur (h.not_tombstoned (hheld ▸ h1)) h3.symm
        have hkind := (h.chain.chains.alloc _ hset.inserted).2
        refine if_neg ?_
        rw [(h4 e rfl).kept, hkind]
        decide
    rw [hver]
    exact h.follows_cur hact (hheld ▸ h1) h2
  · -- the memcpy from the newest version
    rename_i k j hdup
    cases hs
    have hk : (s.dup t).target = some k := by rw [hdup]; rfl
    obtain ⟨-, -, hheld⟩ := ht.of_dup (by rw [hdup]; exact nofun)
    rw [hdup] at hd
    obtain ⟨h1, h2, h3⟩ := hd
    refine h.duplicated hk ?_
    rw [h2.kept]
    exact h3.follows h (hheld ▸ h1) h2.inserted

/-! ### The attempt to lock -/

/-- A new copy is allocated, at an address where none in use lies. -/
theorem Invariant.tryTest (h : Invariant B s) {kind : VersionChain.Kind} {old : Option ℕ}
    (hpc : (s.chain.threads t).pc = .tryTest o kind old)
    (hc : VersionChain.lockStep B s.chain t = some c') (hv : s.Vacant a) :
    TxStep B s (if (c'.threads t).pc = .inTx then
      ({ s with chain := c' }.place s.chain.numCopies a).giveBack s.chain.numCopies
      else { s with chain := c' }.place s.chain.numCopies a) t := by
  have hchain := VersionChain.inv_lockStep h.chain hc
  have hplain := VersionChain.plain_lockStep h.plain hc
  have hq := VersionChain.lockStep_quiet h.chain hc
  have hf := VersionChain.lockStep_forward hc
  obtain ⟨hact, hidle⟩ := (h.tx t).of_busy hf.inside (by rw [hpc]; exact nofun)
  have hown : (s.chain.threads t).pc.own = none := by rw [hpc]; rfl
  have hc' : c'.numCopies = s.chain.numCopies + 1 ∧
      ((c'.threads t).pc = .inTx ∨ (c'.threads t).pc = .tryCas o old s.chain.numCopies) := by
    unfold VersionChain.lockStep at hc
    rw [hpc] at hc
    dsimp only at hc
    split at hc <;> cases hc
    · exact ⟨rfl, Or.inl (by rw [VersionChain.setPc_threads, if_pos rfl])⟩
    · exact ⟨rfl, Or.inr (by rw [VersionChain.setPc_threads, if_pos rfl])⟩
  obtain ⟨hnum, hpc'⟩ := hc'
  have hmine : ∀ {f : Bool} {s' : State}, s'.chain = c' →
      s'.slot = Function.update s.slot s.chain.numCopies ⟨a, false, none, false, f, false⟩ →
      ∀ k, Mine s.chain t k → Mine s'.chain t k → s'.slot k = s.slot k := by
    intro f s' _ hslot k hk _
    rw [hslot, Function.update_of_ne (Nat.ne_of_lt (hk.alloc h.chain).1)]
  split
  · -- the test has failed
    rename_i hin
    have hslot : (({ s with chain := c' }.place s.chain.numCopies a).giveBack
        s.chain.numCopies).slot =
        Function.update s.slot s.chain.numCopies ⟨a, false, none, false, true, false⟩ := by
      dsimp only [State.giveBack, State.place, State.setSlot]
      rw [Function.update_self, Function.update_idem]
    refine h.forward_step (t := t) hact hidle hchain hplain hq hf
      (Space.place h.slots hnum hslot rfl hv (Or.inr rfl)) (by constructor <;> rfl)
      (by constructor <;> intros <;> rfl) rfl rfl rfl
      ⟨Nat.le_refl _, h.qp.lt⟩ (fun _ _ hu => hu) (hmine rfl hslot) ?_ ?_ ?_ ?_ ?_
    · rw [hown]
      exact nofun
    · intro hn
      have hn' : (c'.threads t).pc.own = some s.chain.numCopies := hn
      rw [hin] at hn'
      cases hn'
    · rw [hown]
      exact nofun
    · show DupOk B _ t (s.dup t)
      rw [hidle]
      trivial
    · exact fun hd => absurd hidle hd
  · rename_i hin
    have hcas := hpc'.resolve_left hin
    have hown' : Mine c' t s.chain.numCopies := Or.inr (by rw [hcas]; rfl)
    refine h.forward_step (t := t) hact hidle hchain hplain hq hf
      (Space.place h.slots hnum rfl rfl hv (Or.inl hown')) (by constructor <;> rfl)
      (by constructor <;> intros <;> rfl) rfl rfl rfl
      ⟨Nat.le_refl _, h.qp.lt⟩ (fun _ _ hu => hu) (hmine rfl rfl) ?_ ?_ ?_ ?_ ?_
    · rw [hown]
      exact nofun
    · intro _
      dsimp only [State.place, State.setSlot]
      rw [Function.update_self]
    · rw [hown]
      exact nofun
    · show DupOk B _ t (s.dup t)
      rw [hidle]
      trivial
    · exact fun hd => absurd hidle hd

/-- The copy of an attempt that fails is given back. -/
theorem Invariant.attempt_fails (h : Invariant B s) (hk : (s.chain.threads t).pc.own = some k)
    (hc : VersionChain.lockStep B s.chain t = some c') (hnum : c'.numCopies = s.chain.numCopies)
    (hpc' : (c'.threads t).pc = .inTx) (hnot : k ∉ (c'.threads t).held) :
    TxStep B s ({ s with chain := c' }.giveBack k) t := by
  have hq := VersionChain.lockStep_quiet h.chain hc
  have hf := VersionChain.lockStep_forward hc
  obtain ⟨hact, hidle⟩ := (h.tx t).of_busy hf.inside (by
    intro hpc
    rw [hpc] at hk
    cases hk)
  have hm : Mine s.chain t k := Or.inr hk
  have hfresh := h.chain.own_fresh hk
  have hnotm : ¬ Mine c' t k := by
    rintro (h1 | h1)
    · exact hnot h1
    · rw [hpc'] at h1
      cases h1
  refine h.forward_step (t := t) hact hidle (VersionChain.inv_lockStep h.chain hc)
    (VersionChain.plain_lockStep h.plain hc) hq hf
    (Space.giveBack h.slots hnum rfl rfl hm ((hq.inserted k).trans hfresh) (hm.alloc h.chain).1)
    (by constructor <;> rfl)
      (by constructor <;> intros <;> rfl)
    rfl rfl rfl ⟨Nat.le_refl _, h.qp.lt⟩ (fun _ _ hu => hu) ?_ ?_ ?_ ?_ ?_ ?_
  · intro j _ hj
    refine Function.update_of_ne ?_ ..
    rintro rfl
    exact hnotm hj
  · intro j hj
    rw [hk, Option.some_inj] at hj
    subst hj
    right
    dsimp only [State.giveBack, State.setSlot]
    rw [Function.update_self]
  · intro hn
    have hn' : (c'.threads t).pc.own = some s.chain.numCopies := hn
    rw [hpc'] at hn'
    cases hn'
  · intro j hj hjk
    rw [hk, Option.some_inj] at hjk
    subst hjk
    exact absurd hj hnot
  · show DupOk B _ t (s.dup t)
    rw [hidle]
    trivial
  · exact fun hd => absurd hidle hd

/-- The lock is taken: the memcpy begins. -/
theorem Invariant.locked (h : Invariant B s) {old : Option ℕ} {dup : Dup}
    (hpc : (s.chain.threads t).pc = .recheck o old k)
    (hc : VersionChain.lockStep B s.chain t = some c') (hnum : c'.numCopies = s.chain.numCopies)
    (hpc' : (c'.threads t).pc = .inTx) (hk : k ∈ (c'.threads t).copies)
    (htarget : dup.target = some k) (hdup : DupOk B ({ s with chain := c' }.setDup t dup) t dup) :
    TxStep B s ({ s with chain := c' }.setDup t dup) t := by
  have hq := VersionChain.lockStep_quiet h.chain hc
  have hf := VersionChain.lockStep_forward hc
  have hown : (s.chain.threads t).pc.own = some k := by rw [hpc]; rfl
  obtain ⟨hact, hidle⟩ := (h.tx t).of_busy hf.inside (by rw [hpc]; exact nofun)
  have hself : ({ s with chain := c' }.setDup t dup).dup t = dup := Function.update_self ..
  have hheld : k ∈ (c'.threads t).held := by
    rw [VersionChain.held_eq (by rw [hpc']; exact nofun)]
    exact hk
  refine h.forward_step (t := t) hact hidle (VersionChain.inv_lockStep h.chain hc)
    (VersionChain.plain_lockStep h.plain hc) hq hf (Space.same h.slots hnum rfl rfl)
    (by constructor <;> rfl)
    ⟨fun u hu => Function.update_of_ne hu .., fun _ _ => rfl, fun _ _ => rfl⟩ rfl rfl rfl
    ⟨Nat.le_refl _, h.qp.lt⟩ (fun _ _ hu => hu) (fun _ _ _ => rfl) ?_ ?_ ?_ ?_ ?_
  · intro j hj
    rw [hown, Option.some_inj] at hj
    exact Or.inl (Or.inl (hj ▸ hheld))
  · intro hn
    have hn' : (c'.threads t).pc.own = some s.chain.numCopies := hn
    rw [hpc'] at hn'
    cases hn'
  · intro j _ hj
    rw [hself, htarget]
    exact hown.symm.trans hj
  · rw [hself]
    exact hdup
  · exact fun _ => hpc'

theorem judge_own {c : VersionChain.State} {kind : VersionChain.Kind} :
    (VersionChain.judge B c t o kind k w).numCopies = c.numCopies ∧
      ((VersionChain.judge B c t o kind k w).threads t).pc.own = none := by
  unfold VersionChain.judge
  split <;> exact ⟨rfl, by rw [VersionChain.setPc_threads, if_pos rfl]; rfl⟩

/-- The steps before the allocation. -/
theorem lockStep_early {c : VersionChain.State} (hc : VersionChain.lockStep B c t = some c')
    (htest : ∀ o kind old, (c.threads t).pc ≠ .tryTest o kind old)
    (hown : (c.threads t).pc.own = none) :
    c'.numCopies = c.numCopies ∧ (c'.threads t).pc.own = none := by
  have hset : ∀ {pc : Pc}, pc.own = none →
      (c.setPc t pc).numCopies = c.numCopies ∧ ((c.setPc t pc).threads t).pc.own = none :=
    fun hpc => ⟨rfl, by rw [VersionChain.setPc_threads, if_pos rfl]; exact hpc⟩
  unfold VersionChain.lockStep at hc
  split at hc <;> rename_i hpc
  · split at hc <;> cases hc <;> exact hset rfl
  · split at hc <;> cases hc
    · exact judge_own
    · exact hset rfl
  · dsimp only at hc
    split at hc <;> cases hc
    · exact judge_own
    · exact hset rfl
  · dsimp only at hc
    split at hc <;> cases hc
    exact judge_own
  · exact absurd hpc (htest _ _ _)
  · rw [hpc] at hown
    cases hown
  · rw [hpc] at hown
    cases hown
  · cases hc

theorem Invariant.tryCas (h : Invariant B s) {old : Option ℕ}
    (hpc : (s.chain.threads t).pc = .tryCas o old k)
    (hc : VersionChain.lockStep B s.chain t = some c') :
    TxStep B s (if (c'.threads t).pc = .inTx then { s with chain := c' }.giveBack k
      else { s with chain := c' }) t := by
  have hc' := hc
  have hp := (h.chain.threads t).pc
  rw [hpc] at hp
  have hnot : k ∉ (s.chain.threads t).copies := hp.2.2.2.2.2.2.2.2
  have hown : (s.chain.threads t).pc.own = some k := by rw [hpc]; rfl
  unfold VersionChain.lockStep at hc'
  rw [hpc] at hc'
  dsimp only at hc'
  split at hc' <;> cases hc'
  · rw [if_neg (by rw [VersionChain.setPc_threads, if_pos rfl]; exact nofun)]
    have hf := VersionChain.lockStep_forward hc
    obtain ⟨hact, hidle⟩ := (h.tx t).of_busy hf.inside (by rw [hpc]; exact nofun)
    have hpc' : (((s.chain.setPLock o (some k)).setPc t (.recheck o old k)).threads t).pc =
        .recheck o old k := by
      rw [VersionChain.setPc_threads, if_pos rfl]
    refine h.forward_step (t := t) hact hidle (VersionChain.inv_lockStep h.chain hc)
      (VersionChain.plain_lockStep h.plain hc) (VersionChain.lockStep_quiet h.chain hc) hf
      (Space.same h.slots rfl rfl rfl) (by constructor <;> rfl)
      (by constructor <;> intros <;> rfl) rfl rfl rfl ⟨Nat.le_refl _, h.qp.lt⟩
      (fun _ _ hu => hu) (fun _ _ _ => rfl) ?_ ?_ ?_ ?_ ?_
    · intro j hj
      rw [hown] at hj
      refine Or.inl (Or.inr ?_)
      dsimp only
      rw [hpc']
      exact hj
    · intro hn
      dsimp only at hn
      rw [hpc'] at hn
      have hlt := (Mine.alloc (Or.inr hown) h.chain).1
      rw [Option.some_inj.mp hn] at hlt
      exact absurd hlt (Nat.lt_irrefl _)
    · intro j hj hjk
      rw [hown, Option.some_inj] at hjk
      subst hjk
      dsimp only at hj
      rw [VersionChain.held_eq (by rw [hpc']; exact nofun), VersionChain.setPc_threads,
        if_pos rfl] at hj
      exact absurd hj hnot
    · show DupOk B _ t (s.dup t)
      rw [hidle]
      trivial
    · exact fun hd => absurd hidle hd
  · have hpc' : ((s.chain.setPc t .inTx).threads t).pc = .inTx := by
      rw [VersionChain.setPc_threads, if_pos rfl]
    rw [if_pos hpc']
    refine h.attempt_fails hown hc rfl hpc' ?_
    rw [VersionChain.held_eq (by rw [hpc']; exact nofun), VersionChain.setPc_threads, if_pos rfl]
    exact hnot

theorem Invariant.recheck (h : Invariant B s) {old : Option ℕ}
    (hpc : (s.chain.threads t).pc = .recheck o old k)
    (hc : VersionChain.lockStep B s.chain t = some c') :
    TxStep B s (if k ∈ (c'.threads t).copies then
      match old with
      | none => { s with chain := c' }.setDup t (.loadAct k)
      | some j => { s with chain := c' }.setDup t (.copyOld k (s.look j))
      else { s with chain := c' }.giveBack k) t := by
  have hc' := hc
  have hp := (h.chain.threads t).pc
  rw [hpc] at hp
  obtain ⟨-, -, -, h4, h5, h6, hnot⟩ := hp
  have hown : (s.chain.threads t).pc.own = some k := by rw [hpc]; rfl
  have hchain := VersionChain.inv_lockStep h.chain hc
  obtain ⟨hact, -⟩ := (h.tx t).of_busy (by rw [hpc]; exact nofun) (by rw [hpc]; exact nofun)
  unfold VersionChain.lockStep at hc'
  rw [hpc] at hc'
  dsimp only at hc'
  split at hc' <;> cases hc'
  · -- the newest version is not the one that was compared
    have hT : ((s.chain.setPLock o none).setPc t .inTx).threads t =
        { s.chain.threads t with pc := .inTx } := by
      rw [VersionChain.setPc_threads, if_pos rfl]
      rfl
    rw [if_neg (by rw [hT]; exact hnot)]
    refine h.attempt_fails hown hc rfl (by rw [hT]) ?_
    rw [VersionChain.held_eq (by rw [hT]; exact nofun), hT]
    exact hnot
  · rename_i heq
    have heq' : s.chain.pCopy o = old := Classical.not_not.mp heq
    set T' : Thread := { s.chain.threads t with
      pc := .inTx, copies := (s.chain.threads t).copies ++ [k] } with hT'
    have hT : (s.chain.setThread t T').threads t = T' := by
      rw [VersionChain.setThread_threads, if_pos rfl]
    have hk : k ∈ ((s.chain.setThread t T').threads t).copies := by
      rw [hT]
      exact List.mem_append_right _ (List.mem_singleton.mpr rfl)
    rw [if_pos hk]
    cases old with
    | none =>
      refine h.locked hpc hc rfl (by rw [hT]) hk rfl ⟨hk, ?_⟩
      show s.chain.pCopy (s.chain.copies k).obj = none
      rw [h6]
      exact heq'
    | some j =>
      have hsafe : Safe s t j := (h.tx t).ptr hact j (by rw [hpc]; rfl)
      obtain ⟨hj1, hj2, -⟩ := h.chain.chains.head o j heq'
      dsimp only
      rw [h.look_eq hsafe]
      refine h.locked hpc hc rfl (by rw [hT]) hk rfl
        ⟨hk, ⟨hsafe.inserted, hsafe.kept, hsafe.passed⟩, ?_⟩
      constructor
      · exact hj2.trans h6.symm
      · -- the version was compared with the local clock
        have hkh : k ∈ ((s.chain.setThread t T').threads t).held := by
          rw [VersionChain.held_eq (by rw [hT]; exact nofun)]
          exact hk
        have hp' : (s.chain.setThread t T').pCopy ((s.chain.setThread t T').copies k).obj =
            some j := by
          show s.chain.pCopy (s.chain.copies k).obj = some j
          rw [h6]
          exact heq'
        exact (((hchain.threads t).after k hkh).head h5.1 j hp').2
      · intro i hi hio
        by_cases hij : i = j
        · exact Nat.le_of_eq (by rw [hij])
        · exact Nat.le_of_lt (h.history.head o j i heq' hi (hio.trans h6) hij)

/-- A step of `_ts_try_lock`. -/
theorem Invariant.lockStep (h : Invariant B s) (hok : Orderly s (.lockStep t a))
    (hs : lockStep B s t a = some s') : TxStep B s s' t := by
  have hv : NoOverrun s a (s.chain.threads t).pc := hok
  unfold WriteRule.lockStep at hs
  rw [h.view_eq] at hs
  obtain ⟨c', hc, hs⟩ := Option.bind_eq_some_iff.mp hs
  have hf := VersionChain.lockStep_forward hc
  dsimp only at hs
  split at hs
  · rename_i o kind old hpc
    rw [hpc] at hv
    cases hs
    exact h.tryTest hpc hc hv
  · rename_i o old k hpc
    cases hs
    exact h.tryCas hpc hc
  · rename_i o old k hpc
    -- the copy is the thread's own now, or it goes back
    have hi := h.recheck hpc hc
    split at hs
    · rename_i hk
      rw [if_pos hk] at hi
      cases old <;> cases hs <;> exact hi
    · rename_i hk
      rw [if_neg hk] at hi
      cases hs
      exact hi
  · rename_i h1 h2 h3
    cases hs
    -- the steps before the copy is appended take no space
    obtain ⟨hact, hidle⟩ := (h.tx t).of_busy hf.inside (by
      intro hpc
      unfold VersionChain.lockStep at hc
      rw [hpc] at hc
      cases hc)
    have hown : (s.chain.threads t).pc.own = none := by
      cases hpc : (s.chain.threads t).pc with
      | tryCas o old k => exact absurd hpc (h2 o old k)
      | recheck o old k => exact absurd hpc (h3 o old k)
      | _ => rfl
    obtain ⟨hnum, hown'⟩ := lockStep_early hc h1 hown
    exact h.quiet_step hact hidle (VersionChain.inv_lockStep h.chain hc)
      (VersionChain.plain_lockStep h.plain hc) (VersionChain.lockStep_quiet h.chain hc) hf hown
      hown' hnum rfl rfl rfl rfl rfl rfl
      (by constructor <;> rfl) ⟨Nat.le_refl _, h.qp.lt⟩ fun _ _ hu => hu

/-! ### The commit -/

/-- A commit allocates nothing. -/
theorem commitStep_own {c : VersionChain.State} (hi : VersionChain.Inv B c)
    (hc : VersionChain.commitStep B c t v = some c') :
    c'.numCopies = c.numCopies ∧ (c.threads t).pc.own = none ∧ (c'.threads t).pc.own = none ∧
      (c.threads t).pc ≠ .inTx := by
  unfold VersionChain.commitStep at hc
  dsimp only at hc
  have hset : ∀ {c₁ : VersionChain.State} {pc : Pc}, pc.own = none →
      ((c₁.setPc t pc).threads t).pc.own = none := by
    intro c₁ pc hpc
    rw [VersionChain.setPc_threads, if_pos rfl]
    exact hpc
  split at hc
  · rename_i hpc
    rw [hpc]
    split at hc <;> cases hc <;> exact ⟨rfl, rfl, hset rfl, nofun⟩
  · rename_i hpc
    rw [hpc]
    cases hc
    exact ⟨rfl, rfl, hset rfl, nofun⟩
  · rename_i hpc
    rw [hpc]
    split at hc <;> cases hc <;> exact ⟨rfl, rfl, hset rfl, nofun⟩
  · rename_i hpc
    rw [hpc]
    split at hc
    · cases hc
      exact ⟨rfl, rfl, hset rfl, nofun⟩
    · cases hc
  · rename_i hpc
    rw [hpc]
    obtain ⟨w, -, rfl⟩ := Option.map_eq_some_iff.mp hc
    exact ⟨rfl, rfl, hset rfl, nofun⟩
  · rename_i hpc
    rw [hpc]
    obtain ⟨w, -, rfl⟩ := Option.map_eq_some_iff.mp hc
    exact ⟨rfl, rfl, hset rfl, nofun⟩
  · rename_i hpc
    obtain ⟨-, hst, -⟩ := hi.stamps_held hpc
    rw [hpc]
    cases hc
    exact ⟨hst.numCopies, rfl, hset rfl, nofun⟩
  · rename_i hpc
    rw [hpc]
    cases hc
    exact ⟨rfl, rfl, by rw [VersionChain.setThread_threads, if_pos rfl]; rfl, nofun⟩
  · cases hc

section

variable (h : Invariant B s) (hc : VersionChain.commitStep B s.chain t v = some c')

include h hc

/-- A step of a commit that inserts or stamps a version: the other facts about it. -/
theorem Invariant.version_step (hhist : History B c' s.copied)
    (hleaves : Leaves s.chain c' t) (hev : Evolves s.qp0 s.chain c')
    (howner : ∀ k < s.chain.numCopies,
      (c'.wss (c'.copies k).ws).thread = (s.chain.wss (s.chain.copies k).ws).thread)
    (hins : ∀ k, (c'.copies k).inserted = true →
      (s.chain.copies k).inserted = true ∨ k ∈ (s.chain.threads t).held)
    (hstamp : ∀ k < s.chain.numCopies, (s.chain.copies k).wrtClk ≠ maxVersion →
      (c'.copies k).wrtClk = (s.chain.copies k).wrtClk)
    (hkinds : ∀ k, (c'.copies k).kind = (s.chain.copies k).kind ∧
      (c'.copies k).obj = (s.chain.copies k).obj)
    (hlink : ∀ k ∈ (s.chain.threads t).held, (c'.copies k).inserted = true → ∀ j,
      (c'.copies k).pCopy = some j → Safe s t j) : TxStep B s { s with chain := c' } t := by
  have hf := VersionChain.commitStep_forward h.chain hc
  obtain ⟨hnum, hown, hown', hin⟩ := commitStep_own h.chain hc
  obtain ⟨hact, hidle⟩ := (h.tx t).of_busy hf.inside hin
  have hheld : ∀ k ∈ (c'.threads t).held, k ∈ (s.chain.threads t).held := by
    intro k hk
    rcases hf.held k hk with h1 | h1
    · exact h1
    · rw [hown] at h1
      cases h1
  refine ⟨Space.same h.slots hnum rfl rfl, (by constructor <;> rfl),
    VersionChain.inv_commitStep h.chain hc, VersionChain.plain_commitStep h.plain h.chain hc,
    VersionChain.freeLocked_commitStep h.tombs.locked h.chain hc, hhist, hleaves, hev, howner, hins,
    hstamp, fun k _ _ => hkinds k, fun _ => Or.inl rfl, ?_, fun _ _ => rfl, fun _ _ => rfl,
    fun _ _ => rfl, ⟨Nat.le_refl _, h.qp.lt⟩, fun _ => Or.inl ⟨hact, rfl, hf.localClk⟩,
    fun _ _ hu => hu, ?_⟩
  · rintro k (hk | hk)
    · rcases hf.keep k hk with h1 | h1
      · exact Or.inl (Or.inl h1)
      · exact Or.inr (Or.inl h1)
    · rw [hown] at hk
      cases hk
  · refine TxOk.forward h hact hidle hf rfl
      (fun j hj => ⟨(hev.old j hj.inserted).1, hj.kept, hj.passed⟩)
      (fun k hk hi j hj => hlink k (hheld k hk) hi j hj) (fun _ _ _ => ⟨rfl, rfl⟩) ?_ ?_ ?_ ?_
    · dsimp only
      rw [hown']
      exact nofun
    · rw [hown]
      exact nofun
    · show DupOk B _ t (s.dup t)
      rw [hidle]
      trivial
    · exact fun hd => absurd hidle hd

/-- The copies of a write set that is committed were written. -/
theorem Invariant.held_copied (hk : k ∈ (s.chain.threads t).held) :
    ∃ x, s.copied k = some x ∧ x.localClk = (s.chain.threads t).localClk := by
  have hf := VersionChain.commitStep_forward h.chain hc
  obtain ⟨-, -, -, hin⟩ := commitStep_own h.chain hc
  obtain ⟨-, hidle⟩ := (h.tx t).of_busy hf.inside hin
  rcases ((h.tx t).held k hk).2 with h1 | h1
  · rw [hidle] at h1
    cases h1
  · exact h1

theorem Invariant.chain_commitStep : TxStep B s { s with chain := c' } t := by
  have hf := VersionChain.commitStep_forward h.chain hc
  obtain ⟨hnum, hown, hown', hin⟩ := commitStep_own h.chain hc
  obtain ⟨hact, hidle⟩ := (h.tx t).of_busy hf.inside hin
  have hheld : ∀ u, u ≠ t → c'.threads u = s.chain.threads u →
      ∀ j ∈ (c'.threads u).held, j ∈ (s.chain.threads u).held := by
    intro u _ hu j hj
    rw [hu] at hj
    exact hj
  have hheldt : ∀ j ∈ (c'.threads t).held, j ∈ (s.chain.threads t).held := by
    intro j hj
    rcases hf.held j hj with h1 | h1
    · exact h1
    · rw [hown] at h1
      cases h1
  rcases VersionChain.commitStep_cases h.chain hc with hq | ⟨k, ks, hpc, hset⟩ | ⟨W, k, ks, hpc, hset⟩
  · exact h.quiet_step hact hidle (VersionChain.inv_commitStep h.chain hc)
      (VersionChain.plain_commitStep h.plain h.chain hc) hq hf hown hown' hnum rfl rfl rfl rfl rfl rfl
      (by constructor <;> rfl) ⟨Nat.le_refl _, h.qp.lt⟩ fun _ _ hu => hu
  · -- the copy enters the chain
    have he := h.chain.entering hpc
    have hi : Inserts s.chain _ k := VersionChain.inserts_moveCas
    obtain ⟨x, hx, -⟩ := h.held_copied hc he.held
    have hcop : c'.copies = (s.chain.setCopy k { s.chain.copies k with inserted := true }).copies := by
      rw [hset]
      rfl
    have hhead : c'.pCopy = ((s.chain.setCopy k { s.chain.copies k with inserted := true }).setPCopy
        (s.chain.copies k).obj (some k)).pCopy := by
      rw [hset]
      rfl
    have hwss : c'.wss = s.chain.wss := by
      rw [hset]
      rfl
    have hthr : ∀ u, u ≠ t → c'.threads u = s.chain.threads u := by
      intro u hu
      rw [hset, VersionChain.setPc_threads, if_neg hu]
      rfl
    have hfields : ∀ j, (c'.copies j).ws = (s.chain.copies j).ws ∧
        (c'.copies j).wrtClk = (s.chain.copies j).wrtClk ∧
          (c'.copies j).pCopy = (s.chain.copies j).pCopy := by
      intro j
      rw [hcop]
      obtain ⟨-, h2, h3, h4⟩ := hi.fields j
      exact ⟨h2, h3, h4⟩
    have hcases : ∀ j, (c'.copies j).inserted = true →
        j = k ∨ (s.chain.copies j).inserted = true := by
      intro j hj
      rw [hcop] at hj
      rcases hi.cases hj with h1 | ⟨-, h1, -⟩
      · exact Or.inl h1
      · exact Or.inr h1
    refine h.version_step hc ?_ (VersionChain.leaves_insert h.chain he.held hi hcop hhead hthr)
      (evolves_insert h.chain he hi h.masters.le hcop hhead) ?_ ?_ (fun j _ _ => (hfields j).2.1)
      ?_ ?_
    · refine h.history.insert h.chain he hi hx hcop hhead fun u => ?_
      by_cases hu : u = t
      · exact hu ▸ hheldt
      · exact hheld u hu (hthr u hu)
    · intro j _
      rw [hwss, (hfields j).1]
    · intro j hj
      rcases hcases j hj with rfl | h1
      · exact Or.inr he.held
      · exact Or.inl h1
    · intro j
      rw [hcop]
      exact ⟨hi.kind, (hi.fields j).1⟩
    · intro i hik hii j hj
      rw [(hfields i).2.2] at hj
      rcases hcases i hii with rfl | h1
      · rw [he.pCopy] at hj
        exact h.safe_head hj
      · exact (h.tx t).link hact i hik h1 j hj
  · -- the copy gets its stamp
    obtain ⟨hk, hst, hclk, hW⟩ := h.chain.stamps_held hpc
    obtain ⟨x, hx, hxl⟩ := h.held_copied hc hk
    have hcop : c'.copies = (VersionChain.unlockCommit s.chain k W).copies := by
      rw [hset]
      rfl
    have hhead : c'.pCopy = (VersionChain.unlockCommit s.chain k W).pCopy := by
      rw [hset]
      rfl
    have hwss : c'.wss = s.chain.wss := by
      rw [hset]
      exact hst.wss
    have hthr : ∀ u, u ≠ t → c'.threads u = s.chain.threads u := by
      intro u hu
      rw [hset, VersionChain.setPc_threads, if_neg hu, hst.threads]
    have hins : ∀ j, (c'.copies j).inserted = (s.chain.copies j).inserted := by
      intro j
      rw [hcop]
      exact (hst.fields j).1
    have hq0 := (h.qp.active t hact).2.2
    refine h.version_step hc ?_ (VersionChain.leaves_stamp h.chain hk hst hcop hhead hthr)
      (evolves_stamp h.chain hk hst (by omega) hcop hhead) ?_
      (fun j hj => Or.inl ((hins j) ▸ hj)) ?_ ?_ ?_
    · refine h.history.stamp h.chain hk hst hx (by omega) hW hcop hhead fun u => ?_
      by_cases hu : u = t
      · exact hu ▸ hheldt
      · exact hheld u hu (hthr u hu)
    · intro j _
      rw [hwss, hcop, (hst.fields j).2.2.2.1]
    · intro j _ hj
      rw [hcop]
      refine hst.wrtClk ?_
      rintro rfl
      exact hj (held_wrtClk h.chain hk)
    · intro j
      rw [hcop]
      exact ⟨hst.kind, (hst.fields j).2.1⟩
    · intro i hik hii j hj
      rw [hins] at hii
      rw [hcop, hst.pCopy_eq hii] at hj
      exact (h.tx t).link hact i hik hii j hj

end

/-- A step of `tvlog_commit`. -/
theorem Invariant.commitStep (h : Invariant B s) (hs : commitStep B s t v = some s') :
    TxStep B s s' t := by
  unfold WriteRule.commitStep at hs
  rw [h.view_eq] at hs
  split at hs
  · cases hs
  · rename_i hread
    obtain ⟨c', hc, rfl⟩ := Option.map_eq_some_iff.mp hs
    have h₁ := h.chain_commitStep hc
    dsimp only
    split
    · -- the commit reads its clock
      rename_i hpc
      have hv : v < maxVersion := by
        by_contra hv
        exact hread ⟨hpc, fun hr => hv hr.2⟩
      exact h₁.read hv
    · rename_i W hpc
      refine h₁.endRun fun ha => ha.1 ?_
      unfold VersionChain.commitStep at hc
      dsimp only at hc
      rw [hpc] at hc
      cases hc
      exact congrArg Thread.pc ((VersionChain.setThread_threads).trans (if_pos rfl))
    · exact h₁

end TimeStone.WriteRule
