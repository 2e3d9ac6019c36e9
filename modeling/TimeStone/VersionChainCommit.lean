/-
Commits keep the version chains in order.

A copy enters the chain by the compare-and-swap of `ws_move_lock_to_copy`, before the version
that its transaction has compared when it took the lock; only a detach can have come in
between, and then the swap fails and the copy enters an empty chain.  The stamp closes the
pair: it is two boundaries after the local clock, and the older version is before that.

* `inv_moveCas`, `inv_stamp` — the two steps that change a chain;
* `version_chain_ok` — the chains are in order in every state.
-/
import TimeStone.VersionChainInv

namespace TimeStone.VersionChain

variable {B : ℕ} {s s' : State} {t u o k w W : ℕ} {T : Thread} {c : Copy}

/-! ### `tvlog_commit` -/

/-- The owner of a copy that another thread has not stamped is another thread. -/
theorem Inv.ne_of_owner (h : Inv B s) (hk : k ∈ (s.threads t).held) {k' : ℕ} (hu : u ≠ t)
    (hown : (s.wss (s.copies k').ws).thread = u) : k' ≠ k := by
  rintro rfl
  rw [((h.threads t).ws _ ((h.threads t).holds k' hk).ws).2] at hown
  exact hu hown.symm

/-- The locks of one thread are on different objects. -/
theorem Inv.obj_ne (h : Inv B s) (hk : k ∈ (s.threads t).held) {k' : ℕ}
    (hl : s.pLock (s.copies k').obj = some k') (hne : k' ≠ k) :
    (s.copies k').obj ≠ (s.copies k).obj := by
  intro heq
  rw [heq, ((h.threads t).holds k hk).lock, Option.some_inj] at hl
  exact hne hl.symm

/-- A thread writes to a copy of its own that is in no chain. -/
theorem Inv.setOwn (h : Inv B s) {pc : Pc} (hne : ∀ W ks, (s.threads t).pc ≠ .stamp W ks)
    (hne' : ∀ W ks, pc ≠ .stamp W ks) (hk : k ∈ (s.threads t).copies)
    (hins : (s.copies k).inserted = false) (hobj : c.obj = (s.copies k).obj)
    (hws : c.ws = (s.copies k).ws) (hwrt : c.wrtClk = (s.copies k).wrtClk)
    (hins' : c.inserted = false)
    (hpc : PcOk B (s.setCopy k c) { s.threads t with pc := pc } pc) :
    Inv B ((s.setCopy k c).setPc t pc) := by
  have hc := h.chains
  have ht := h.threads t
  have hheld : (s.threads t).held = (s.threads t).copies := held_eq hne
  have hkh : k ∈ (s.threads t).held := by
    rw [hheld]
    exact hk
  have hsame : ∀ {k'}, k' ≠ k → (s.setCopy k c).copies k' = s.copies k' := by
    intro k' hk'
    rw [setCopy_copies, if_neg hk']
  have hself : (s.setCopy k c).copies k = c := by rw [setCopy_copies, if_pos rfl]
  have hneIns : ∀ {k'}, (s.copies k').inserted = true → k' ≠ k := by
    rintro k' hk' rfl
    rw [hins] at hk'
    cases hk'
  have hinsOf : ∀ {k'}, ((s.setCopy k c).copies k').inserted = true →
      (s.copies k').inserted = true := by
    intro k' hk'
    by_cases he : k' = k
    · rw [he, hself, hins'] at hk'
      cases hk'
    · rw [hsame he] at hk'
      exact hk'
  have hchains : Chains B (s.setCopy k c) := by
    constructor
    · intro k' hk'
      by_cases he : k' = k
      · rw [he, hself, hws]
        exact hc.ws k (he ▸ hk')
      · rw [hsame he]
        exact hc.ws k' hk'
    · intro k' hk' hcom
      by_cases he : k' = k
      · rw [he, hself, Copy.Committed, hwrt] at hcom
        exact absurd hcom (ht.holds k hkh).unstamped
      · rw [hsame he] at hcom ⊢
        exact hc.stamp k' hk' hcom
    · intro k' hk'
      have h1 := hinsOf hk'
      rw [hsame (hneIns h1)]
      exact hc.alloc k' h1
    · intro o k' hp
      have hh := hc.head o k' hp
      rw [hsame (hneIns hh.1)]
      exact hh
    · intro n k' hn hp
      have h1 := hinsOf hn
      rw [hsame (hneIns h1)] at hp
      have hl := hc.link n k' h1 hp
      exact hl.congr (hsame (hneIns h1)) (hsame (hneIns hl.inserted))
    · intro n hn hcom
      have h1 := hinsOf hn
      rw [hsame (hneIns h1)] at hcom ⊢
      exact hc.unstamped n h1 hcom
    · intro n n' k' hn hn' hp hp'
      have h1 := hinsOf hn
      have h1' := hinsOf hn'
      rw [hsame (hneIns h1)] at hp
      rw [hsame (hneIns h1')] at hp'
      exact hc.one n n' k' h1 h1' hp hp'
    · intro o n k' hp hn
      have h1 := hinsOf hn
      rw [hsame (hneIns h1)]
      exact hc.newest o n k' hp h1
  -- the fields that locks and chains depend on do not change
  have hobj' : ∀ k', ((s.setCopy k c).copies k').obj = (s.copies k').obj := by
    intro k'
    by_cases he : k' = k
    · rw [he, hself, hobj]
    · rw [hsame he]
  have hws' : ∀ k', ((s.setCopy k c).copies k').ws = (s.copies k').ws := by
    intro k'
    by_cases he : k' = k
    · rw [he, hself, hws]
    · rw [hsame he]
  have hwrt' : ∀ k', ((s.setCopy k c).copies k').wrtClk = (s.copies k').wrtClk := by
    intro k'
    by_cases he : k' = k
    · rw [he, hself, hwrt]
    · rw [hsame he]
  refine h.next (t := t) (hchains.congr {}) ?_ ?_
  · intro u hu
    refine ⟨by simp [hu, State.setCopy], Nat.le_refl _, Nat.le_refl _, fun k' _ => hws' k',
      fun k' _ _ => hwrt' k', fun _ _ => rfl, fun _ _ _ => rfl, fun _ _ _ => rfl, ?_, ?_⟩
    · intro k' _ hown _
      exact hsame (h.ne_of_owner hkh hu hown)
    · intro k' _ _ _ hl
      exact ⟨hl, Or.inl rfl⟩
  · rw [setPc_threads, if_pos rfl]
    have hT : ({ s.threads t with pc := pc } : Thread).held = (s.threads t).copies := held_eq hne'
    have h₁ : ThreadOk B (s.setCopy k c) t { s.threads t with pc := pc } := by
      refine ⟨ht.ws, ht.localClk, ht.nodup, ?_, ?_, hpc⟩
      · rw [hT]
        intro k' hk'
        obtain ⟨g1, g2, g3, g4⟩ := ht.holds k' (by rw [hheld]; exact hk')
        refine ⟨g1, ?_, ?_, ?_⟩
        · rw [hws']
          exact g2
        · rw [Copy.Committed, hwrt']
          exact g3
        · rw [hobj']
          exact g4
      · rw [hT]
        intro k' hk'
        obtain ⟨g1, g2⟩ := ht.after k' (by rw [hheld]; exact hk')
        constructor
        · intro hi k₀ hk₀
          rw [hobj'] at hk₀
          rw [Copy.Committed, hwrt']
          refine g1 ?_ k₀ hk₀
          by_cases he : k' = k
          · rw [he]
            exact hins
          · rw [hsame he] at hi
            exact hi
        · intro hi k₀ hk₀
          have hi' := hinsOf hi
          rw [hsame (hneIns hi')] at hk₀
          rw [hwrt']
          exact g2 hi' k₀ hk₀
    exact h₁.frame hchains (Frame.of_same {})

/-- What the insertion of the copy `k` does. -/
structure Inserts (s s' : State) (k : ℕ) : Prop where
  self : s'.copies k = { s.copies k with inserted := true }
  other : ∀ k', k' ≠ k → s'.copies k' = s.copies k'
  head : s'.pCopy (s.copies k).obj = some k
  pCopy : ∀ o, o ≠ (s.copies k).obj → s'.pCopy o = s.pCopy o
  pLock : s'.pLock = s.pLock
  numCopies : s'.numCopies = s.numCopies
  wss : s'.wss = s.wss
  numWss : s'.numWss = s.numWss
  threads : s'.threads = s.threads

theorem inserts_moveCas : Inserts s ((s.setCopy k { s.copies k with inserted := true }).setPCopy
    (s.copies k).obj (some k)) k where
  self := Function.update_self ..
  other := fun _ hk' => Function.update_of_ne hk' ..
  head := Function.update_self ..
  pCopy := fun _ ho => Function.update_of_ne ho ..
  pLock := rfl
  numCopies := rfl
  wss := rfl
  numWss := rfl
  threads := rfl

section

variable (hi : Inserts s s' k)

include hi

theorem Inserts.fields (k' : ℕ) : (s'.copies k').obj = (s.copies k').obj ∧
    (s'.copies k').ws = (s.copies k').ws ∧ (s'.copies k').wrtClk = (s.copies k').wrtClk ∧
    (s'.copies k').pCopy = (s.copies k').pCopy := by
  by_cases he : k' = k
  · rw [he, hi.self]
    exact ⟨rfl, rfl, rfl, rfl⟩
  · rw [hi.other k' he]
    exact ⟨rfl, rfl, rfl, rfl⟩

theorem Inserts.cases {k' : ℕ} (h : (s'.copies k').inserted = true) :
    k' = k ∨ k' ≠ k ∧ (s.copies k').inserted = true ∧ s'.copies k' = s.copies k' := by
  by_cases he : k' = k
  · exact Or.inl he
  · rw [hi.other k' he] at h
    exact Or.inr ⟨he, h, hi.other k' he⟩

end

/-- The copy `k` of the thread `t` enters the chain of its object before the newest version. -/
structure Entering (s : State) (t k : ℕ) : Prop where
  held : k ∈ (s.threads t).held
  fresh : (s.copies k).inserted = false
  prev : (s.copies k).wrtClkPrev = maxVersion
  kind : (s.copies k).kind = .copy
  pCopy : (s.copies k).pCopy = s.pCopy (s.copies k).obj
  next : (s.copies k).wrtClkNext = nextClk s (s.pCopy (s.copies k).obj)

/-- An inserted copy is another one. -/
theorem Entering.ne (he : Entering s t k) {k' : ℕ} (h : (s.copies k').inserted = true) : k' ≠ k := by
  rintro rfl
  rw [he.fresh] at h
  cases h

/-- The new pair of versions. -/
theorem Inserts.link (hi : Inserts s s' k) (h : Inv B s) (he : Entering s t k) {k' : ℕ}
    (hp : s.pCopy (s.copies k).obj = some k') : Link B s' k k' := by
  obtain ⟨h1, h2, -⟩ := h.chains.head _ k' hp
  have hne := he.ne h1
  have hun : ¬ (s'.copies k).Committed := by
    rw [Copy.Committed, (hi.fields k).2.2.1]
    exact ((h.threads t).holds k he.held).unstamped
  constructor
  · rw [hi.other k' hne]
    exact h1
  · rw [(hi.fields k').1, (hi.fields k).1]
    exact h2
  · rw [Copy.Committed, (hi.fields k').2.2.1]
    exact (((h.threads t).after k he.held).head he.fresh k' hp).1
  · rw [hi.self, hi.other k' hne]
    show (s.copies k).wrtClkNext = (s.copies k').wrtClk
    rw [he.next, hp]
    rfl
  · exact fun hc => absurd hc hun
  · exact fun hc => absurd hc hun

theorem Inserts.chains (hi : Inserts s s' k) (h : Inv B s) (he : Entering s t k) : Chains B s' := by
  have hc := h.chains
  have hhk := (h.threads t).holds k he.held
  constructor
  · intro k' hk'
    rw [(hi.fields k').2.1, hi.numWss]
    exact hc.ws k' (hi.numCopies ▸ hk')
  · intro k' hk' hcom
    rw [Copy.Committed, (hi.fields k').2.2.1] at hcom
    rw [(hi.fields k').2.1, (hi.fields k').2.2.1, hi.wss]
    exact hc.stamp k' (hi.numCopies ▸ hk') hcom
  · intro k' hk'
    rw [hi.numCopies]
    rcases hi.cases hk' with rfl | ⟨-, h1, h2⟩
    · rw [hi.self]
      exact ⟨hhk.alloc, he.kind⟩
    · rw [h2]
      exact hc.alloc k' h1
  · intro o k' hp
    by_cases ho : o = (s.copies k).obj
    · rw [ho, hi.head, Option.some_inj] at hp
      rw [← hp, ho, hi.self]
      exact ⟨rfl, rfl, he.prev⟩
    · rw [hi.pCopy o ho] at hp
      have hh := hc.head o k' hp
      rw [hi.other k' (he.ne hh.1)]
      exact hh
  · intro n k' hn hp
    rw [(hi.fields n).2.2.2] at hp
    rcases hi.cases hn with rfl | ⟨-, h1, h2⟩
    · exact hi.link h he (he.pCopy ▸ hp)
    · have hl := hc.link n k' h1 hp
      exact hl.congr h2 (hi.other k' (he.ne hl.inserted))
  · intro n hn hcom
    rw [hi.pLock]
    rcases hi.cases hn with rfl | ⟨hnk, h1, h2⟩
    · rw [(hi.fields n).1]
      exact ⟨hi.head, hhk.lock⟩
    · rw [h2] at hcom ⊢
      obtain ⟨g1, g2⟩ := hc.unstamped n h1 hcom
      rw [hi.pCopy _ (h.obj_ne he.held g2 hnk)]
      exact ⟨g1, g2⟩
  · -- the covered version was the newest, so no other copy covers it
    intro n n' k' hn hn' hp hp'
    rw [(hi.fields n).2.2.2] at hp
    rw [(hi.fields n').2.2.2] at hp'
    rcases hi.cases hn with rfl | ⟨-, h1, -⟩
    · rcases hi.cases hn' with rfl | ⟨-, h1', -⟩
      · rfl
      · exact absurd hp' (hc.newest _ n' k' (he.pCopy ▸ hp) h1')
    · rcases hi.cases hn' with rfl | ⟨-, h1', -⟩
      · exact absurd hp (hc.newest _ n k' (he.pCopy ▸ hp') h1)
      · exact hc.one n n' k' h1 h1' hp hp'
  · intro o n k' hp hn hpn
    rw [(hi.fields n).2.2.2] at hpn
    have hins : (s.copies k').inserted = true ∧ (s.copies k').obj = (s.copies n).obj := by
      rcases hi.cases hn with rfl | ⟨-, h1, -⟩
      · obtain ⟨g1, g2, -⟩ := hc.head _ k' (he.pCopy ▸ hpn)
        exact ⟨g1, g2⟩
      · exact ⟨(hc.link n k' h1 hpn).inserted, (hc.link n k' h1 hpn).obj⟩
    by_cases ho : o = (s.copies k).obj
    · rw [ho, hi.head, Option.some_inj] at hp
      exact he.ne hins.1 hp.symm
    · rw [hi.pCopy o ho] at hp
      rcases hi.cases hn with rfl | ⟨-, h1, -⟩
      · exact ho ((hc.head o k' hp).2.1.symm.trans hins.2)
      · exact hc.newest o n k' hp h1 hpn

/-- The compare-and-swap of `ws_move_lock_to_copy` succeeds: the copy is the newest version. -/
theorem Inv.entering (h : Inv B s) {ks : List ℕ}
    (hpc : (s.threads t).pc = .moveCas k (s.pCopy (s.copies k).obj) ks) : Entering s t k := by
  have hp := (h.threads t).pc
  rw [hpc] at hp
  obtain ⟨⟨hm, hprev, hkind, -⟩, -, hpk, hnext⟩ := hp
  refine ⟨?_, hm.waiting k (List.mem_cons_self ..), hprev, hkind, hpk, hnext⟩
  rw [held_eq (by rw [hpc]; exact nofun)]
  exact hm.sub k (List.mem_cons_self ..)

theorem inv_moveCas (h : Inv B s) {ks : List ℕ}
    (hpc : (s.threads t).pc = .moveCas k (s.pCopy (s.copies k).obj) ks) :
    Inv B (((s.setCopy k { s.copies k with inserted := true }).setPCopy (s.copies k).obj
      (some k)).setPc t (.move ks)) := by
  have ht := h.threads t
  have hp := ht.pc
  rw [hpc] at hp
  obtain ⟨⟨hm, -⟩, hu, hpk, -⟩ := hp
  have hheld : (s.threads t).held = (s.threads t).copies := held_eq (by rw [hpc]; exact nofun)
  have he := h.entering hpc
  have hi := inserts_moveCas (s := s) (k := k)
  have hchains := hi.chains h he
  set s₁ := (s.setCopy k { s.copies k with inserted := true }).setPCopy (s.copies k).obj (some k)
    with hs₁
  refine h.next (t := t) (hchains.congr {}) ?_ ?_
  · intro u hu'
    refine ⟨by rw [setPc_threads, if_neg hu', hi.threads], Nat.le_refl _, Nat.le_refl _,
      fun k' _ => (hi.fields k').2.1, fun k' _ _ => (hi.fields k').2.2.1, fun _ _ => rfl,
      fun _ _ _ => rfl, fun _ _ _ => rfl, ?_, ?_⟩
    · intro k' _ hown _
      exact hi.other k' (h.ne_of_owner he.held hu' hown)
    · intro k' _ hown _ hl
      exact ⟨hl, Or.inl (hi.pCopy _ (h.obj_ne he.held hl (h.ne_of_owner he.held hu' hown)))⟩
  · rw [setPc_threads, if_pos rfl]
    have hT : ({ s₁.threads t with pc := .move ks } : Thread).held = (s.threads t).copies :=
      held_eq nofun
    have h₁ : ThreadOk B s₁ t { s₁.threads t with pc := .move ks } := by
      refine ⟨ht.ws, ht.localClk, ht.nodup, ?_, ?_, ⟨?_, ?_, ?_, ?_⟩, hu⟩
      · rw [hT, ← hheld]
        intro k' hk'
        obtain ⟨g1, g2, g3, g4⟩ := ht.holds k' hk'
        refine ⟨g1, ?_, ?_, ?_⟩
        · rw [(hi.fields k').2.1]
          exact g2
        · rw [Copy.Committed, (hi.fields k').2.2.1]
          exact g3
        · rw [(hi.fields k').1]
          exact g4
      · rw [hT, ← hheld]
        intro k' hk'
        obtain ⟨g1, g2⟩ := ht.after k' hk'
        constructor
        · intro hins k₀ hk₀
          have hne : k' ≠ k := by
            rintro rfl
            rw [hi.self] at hins
            cases hins
          rw [hi.other k' hne] at hins hk₀
          rw [hi.pCopy _ (h.obj_ne he.held (ht.holds k' hk').lock hne)] at hk₀
          rw [Copy.Committed, (hi.fields k₀).2.2.1]
          exact g1 hins k₀ hk₀
        · -- the version that `k` covers was before the local clock already
          intro hins k₀ hk₀
          rw [(hi.fields k').2.2.2] at hk₀
          rw [(hi.fields k₀).2.2.1]
          rcases hi.cases hins with rfl | ⟨-, h1, -⟩
          · exact (g1 he.fresh k₀ (hpk ▸ hk₀)).2
          · exact g2 h1 k₀ hk₀
      · exact fun k' hk' => hm.sub k' (List.mem_cons_of_mem _ hk')
      · exact (List.nodup_cons.mp hm.nodup).2
      · intro k' hk'
        have hne : k' ≠ k := by
          rintro rfl
          exact (List.nodup_cons.mp hm.nodup).1 hk'
        rw [hi.other k' hne]
        exact hm.waiting k' (List.mem_cons_of_mem _ hk')
      · intro k' hk' _
        by_cases hne : k' = k
        · rw [hne, hi.self]
          exact Or.inl rfl
        · rw [hi.other k' hne]
          exact hm.rest k' hk' (by simpa using hne)
    exact h₁.frame hchains (Frame.of_same {})

/-- `pending_wrt_clk` is stored. -/
theorem inv_gotClock (h : Inv B s) (hpc : (s.threads t).pc = .gotClock W) :
    Inv B ((s.setWs w { s.wss w with pendingWrtClk := W }).setPc t (.publish W)) := by
  have hc := h.chains
  have hclk : ∀ w', ((s.setWs w { s.wss w with pendingWrtClk := W }).wss w').wrtClk =
      (s.wss w').wrtClk := by
    intro w'
    rw [setWs_wss]
    split
    · rename_i he
      rw [he]
    · rfl
  have hthread : ∀ w', ((s.setWs w { s.wss w with pendingWrtClk := W }).wss w').thread =
      (s.wss w').thread := by
    intro w'
    rw [setWs_wss]
    split
    · rename_i he
      rw [he]
    · rfl
  have hf : ∀ u, Frame s (s.setWs w { s.wss w with pendingWrtClk := W }) u := by
    intro u
    exact ⟨Nat.le_refl _, Nat.le_refl _, fun _ _ => rfl, fun _ _ _ => rfl, fun w' _ => hthread w',
      fun w' _ _ => hclk w', fun w' _ _ => hclk w', fun _ _ _ _ => rfl,
      fun _ _ _ _ hl => ⟨hl, Or.inl rfl⟩⟩
  have hchains : Chains B (s.setWs w { s.wss w with pendingWrtClk := W }) := by
    refine ⟨hc.ws, ?_, hc.alloc, hc.head, ?_, hc.unstamped, hc.one, hc.newest⟩
    · intro k hk hcom
      rw [hclk]
      exact hc.stamp k hk hcom
    · intro n k hn hp
      exact (hc.link n k hn hp).congr rfl rfl
  have h₁ : Inv B (s.setWs w { s.wss w with pendingWrtClk := W }) :=
    h.next (t := t) hchains (fun u _ => ⟨rfl, hf u⟩) ((h.threads t).frame hc (hf t))
  have hp := (h₁.threads t).pc
  have hpc₁ : ((s.setWs w { s.wss w with pendingWrtClk := W }).threads t).pc = .gotClock W := hpc
  rw [hpc₁] at hp
  obtain ⟨⟨g1, g2, g3, g4⟩, hp2, hp3⟩ := hp
  exact h₁.setPc (by rw [hpc₁]; exact nofun) nofun ⟨⟨g1, g2, g3, g4⟩, hp2, hp3⟩

/-- `wrt_clk` of the write set is stored. -/
theorem inv_publish (h : Inv B s) (hpc : (s.threads t).pc = .publish W)
    (hw : (s.threads t).ws = some w) :
    Inv B ((s.setWs w { s.wss w with wrtClk := W }).setPc t (.stamp W (s.threads t).copies)) := by
  have hc := h.chains
  have ht := h.threads t
  have hp := ht.pc
  rw [hpc] at hp
  obtain ⟨hm, hu, hW⟩ := hp
  have hmax : (s.wss w).wrtClk = maxVersion := hu w hw
  have hne : ∀ {w'}, (s.wss w').wrtClk ≠ maxVersion → w' ≠ w := by
    rintro w' hw' rfl
    exact hw' hmax
  have hsame : ∀ {w'}, w' ≠ w → (s.setWs w { s.wss w with wrtClk := W }).wss w' = s.wss w' := by
    intro w' hw'
    rw [setWs_wss, if_neg hw']
  have hself : (s.setWs w { s.wss w with wrtClk := W }).wss w = { s.wss w with wrtClk := W } := by
    rw [setWs_wss, if_pos rfl]
  have hthread : ∀ w', ((s.setWs w { s.wss w with wrtClk := W }).wss w').thread =
      (s.wss w').thread := by
    intro w'
    by_cases he : w' = w
    · rw [he, hself]
    · rw [hsame he]
  have hchains : Chains B (s.setWs w { s.wss w with wrtClk := W }) := by
    refine ⟨hc.ws, ?_, hc.alloc, hc.head, ?_, hc.unstamped, hc.one, hc.newest⟩
    · intro k hk hcom
      have hst := hc.stamp k hk hcom
      have hk' := hne (by rw [hst]; exact hcom)
      show ((s.setWs w { s.wss w with wrtClk := W }).wss (s.copies k).ws).wrtClk = _
      rw [hsame hk']
      exact hst
    · intro n k hn hp
      exact (hc.link n k hn hp).congr rfl rfl
  have hheld : (s.threads t).held = (s.threads t).copies := held_eq (by rw [hpc]; exact nofun)
  refine h.next (t := t) (hchains.congr {}) ?_ ?_
  · intro u hu'
    refine ⟨by simp [hu', State.setWs], Nat.le_refl _, Nat.le_refl _, fun _ _ => rfl,
      fun _ _ _ => rfl, fun w' _ => hthread w', ?_, ?_, fun _ _ _ _ => rfl,
      fun _ _ _ _ hl => ⟨hl, Or.inl rfl⟩⟩
    · intro w' _ hw'
      exact congrArg Ws.wrtClk (hsame (hne hw'))
    · intro w' _ hown
      have he : w' ≠ w := by
        rintro rfl
        rw [(ht.ws w' hw).2] at hown
        exact hu' hown.symm
      exact congrArg Ws.wrtClk (hsame he)
  · rw [setPc_threads, if_pos rfl]
    refine ⟨?_, ht.localClk, ht.nodup, ?_, ?_, fun k hk => hk, ht.nodup, ?_, ?_, hW⟩
    · intro w' hw'
      refine ⟨(ht.ws w' hw').1, ?_⟩
      show ((s.setWs w { s.wss w with wrtClk := W }).wss w').thread = t
      rw [hthread]
      exact (ht.ws w' hw').2
    · intro k hk
      obtain ⟨g1, g2, g3, g4⟩ := ht.holds k (by rw [hheld]; exact hk)
      exact ⟨g1, g2, g3, g4⟩
    · intro k hk
      obtain ⟨g1, g2⟩ := ht.after k (by rw [hheld]; exact hk)
      exact ⟨g1, g2⟩
    · exact fun k hk => hm.rest k hk nofun
    · intro w' hw'
      obtain rfl : w = w' := Option.some_inj.mp (hw.symm.trans hw')
      exact congrArg Ws.wrtClk hself

/-- What stamping the copy `k` with `W` does to the copies: the next older copy of an
inserted copy records `W` as well. -/
structure Stamps (s s' : State) (k W : ℕ) : Prop where
  self : (s'.copies k).wrtClk = W ∧ (s'.copies k).inserted = (s.copies k).inserted ∧
    (s'.copies k).obj = (s.copies k).obj ∧ (s'.copies k).kind = (s.copies k).kind ∧
    (s'.copies k).ws = (s.copies k).ws ∧ (s'.copies k).wrtClkNext = (s.copies k).wrtClkNext ∧
    (s'.copies k).wrtClkPrev = (s.copies k).wrtClkPrev ∧
    ((s.copies k).inserted = true → (s'.copies k).pCopy = (s.copies k).pCopy)
  old : ∀ k', k' ≠ k → (s.copies k).inserted = true → (s.copies k).pCopy = some k' →
    s'.copies k' = { s.copies k' with wrtClkPrev := W }
  other : ∀ k', k' ≠ k → ((s.copies k).inserted = true → (s.copies k).pCopy ≠ some k') →
    s'.copies k' = s.copies k'
  lock : ∀ o', o' ≠ (s.copies k).obj → s'.pLock o' = s.pLock o'
  pCopy : s'.pCopy = s.pCopy
  numCopies : s'.numCopies = s.numCopies
  wss : s'.wss = s.wss
  numWss : s'.numWss = s.numWss
  threads : s'.threads = s.threads

theorem stamps_unlockCopy (h : Inv B s) (hk : k ∈ (s.threads t).held)
    (hp : (s.copies k).inserted = true ∨ (s.copies k).pCopy = none) :
    Stamps s (unlockCopy s k W) k W := by
  unfold unlockCopy
  dsimp only
  cases hpk : (s.copies k).pCopy with
  | none =>
    refine ⟨?_, ?_, ?_, ?_, rfl, rfl, rfl, rfl, rfl⟩
    · simp [State.setPLock, hpk]
    · intro k' _ _ hk'
      rw [hpk] at hk'
      cases hk'
    · intro k' hk' _
      simp [State.setPLock, hk']
    · intro o' ho'
      simp [ho', State.setCopy]
  | some old =>
    have hins : (s.copies k).inserted = true := by
      rcases hp with hp | hp
      · exact hp
      · rw [hpk] at hp
        cases hp
    have hne : old ≠ k := by
      rintro rfl
      exact ((h.threads t).holds old hk).unstamped (h.chains.link old old hins hpk).committed
    refine ⟨?_, ?_, ?_, ?_, rfl, rfl, rfl, rfl, rfl⟩
    · simp [State.setPLock, hpk, Ne.symm hne]
    · intro k' hk' _ hp'
      rw [hpk, Option.some_inj] at hp'
      subst hp'
      simp [State.setPLock, hk']
    · intro k' hk' hp'
      have hko : k' ≠ old := by
        rintro rfl
        exact hp' hins hpk
      simp [State.setPLock, hk', hko]
    · intro o' ho'
      simp [State.setCopy, ho']

theorem stamps_unlockCommit (h : Inv B s) (hk : k ∈ (s.threads t).held)
    (hp : (s.copies k).inserted = true ∨ (s.copies k).pCopy = none) :
    Stamps s (unlockCommit s k W) k W := by
  unfold unlockCommit
  split
  · exact stamps_unlockCopy h hk hp
  · exact stamps_unlockCopy h hk hp
  · rename_i hkind
    -- a freed copy is in no chain
    have hins : (s.copies k).inserted = false := by
      by_contra hi
      have hcopy := (h.chains.alloc k (by simpa using hi)).2
      rw [hkind] at hcopy
      cases hcopy
    refine ⟨?_, ?_, ?_, fun _ _ => rfl, rfl, rfl, rfl, rfl, rfl⟩
    · simp [hins]
    · intro k' _ hi
      rw [hins] at hi
      cases hi
    · intro k' hk' _
      simp [hk']

section

variable (hst : Stamps s s' k W)

include hst

/-- Another copy changes at most in `wrt_clk_prev`. -/
theorem Stamps.of_ne {k' : ℕ} (hk : k' ≠ k) :
    s'.copies k' = { s.copies k' with wrtClkPrev := (s'.copies k').wrtClkPrev } := by
  by_cases hp : (s.copies k).inserted = true ∧ (s.copies k).pCopy = some k'
  · rw [hst.old k' hk hp.1 hp.2]
  · rw [hst.other k' hk fun h1 h2 => hp ⟨h1, h2⟩]

theorem Stamps.fields (k' : ℕ) : (s'.copies k').inserted = (s.copies k').inserted ∧
    (s'.copies k').obj = (s.copies k').obj ∧ (s'.copies k').kind = (s.copies k').kind ∧
    (s'.copies k').ws = (s.copies k').ws ∧
    (s'.copies k').wrtClkNext = (s.copies k').wrtClkNext := by
  by_cases hk : k' = k
  · rw [hk]
    obtain ⟨-, h2, h3, h4, h5, h6, -⟩ := hst.self
    exact ⟨h2, h3, h4, h5, h6⟩
  · rw [hst.of_ne hk]
    exact ⟨rfl, rfl, rfl, rfl, rfl⟩

theorem Stamps.wrtClk {k' : ℕ} (hk : k' ≠ k) : (s'.copies k').wrtClk = (s.copies k').wrtClk := by
  rw [hst.of_ne hk]

theorem Stamps.pCopy_eq {n : ℕ} (hn : (s.copies n).inserted = true) :
    (s'.copies n).pCopy = (s.copies n).pCopy := by
  by_cases hk : n = k
  · subst hk
    exact hst.self.2.2.2.2.2.2.2 hn
  · rw [hst.of_ne hk]

/-- No copy but `k` covers the version that `k` covers. -/
theorem Stamps.prev_eq (hc : Chains B s) {n k' : ℕ} (hn : (s.copies n).inserted = true)
    (hp : (s.copies n).pCopy = some k') (hnk : n ≠ k) :
    (s'.copies k').wrtClkPrev = (s.copies k').wrtClkPrev := by
  by_cases hk : k' = k
  · rw [hk]
    exact hst.self.2.2.2.2.2.2.1
  · rw [hst.other k' hk]
    intro hins hp'
    exact hnk (hc.one n k k' hn hins hp hp')

end

theorem Stamps.chains (hst : Stamps s s' k W) (h : Inv B s) (hk : k ∈ (s.threads t).held)
    (hW : W < maxVersion) (hws : (s.wss (s.copies k).ws).wrtClk = W)
    (hclk : (s.threads t).localClk + 2 * B < W) : Chains B s' := by
  have hc := h.chains
  have hhk := (h.threads t).holds k hk
  constructor
  · intro k' hk'
    rw [hst.numCopies] at hk'
    rw [(hst.fields k').2.2.2.1, hst.numWss]
    exact hc.ws k' hk'
  · intro k' hk' hcom
    rw [hst.numCopies] at hk'
    rw [(hst.fields k').2.2.2.1, hst.wss]
    by_cases he : k' = k
    · rw [he, hst.self.1]
      exact hws
    · rw [Copy.Committed, hst.wrtClk he] at hcom
      rw [hst.wrtClk he]
      exact hc.stamp k' hk' hcom
  · intro k' hk'
    rw [(hst.fields k').1] at hk'
    rw [(hst.fields k').2.2.1, hst.numCopies]
    exact hc.alloc k' hk'
  · intro o k' hp
    rw [hst.pCopy] at hp
    obtain ⟨h1, h2, h3⟩ := hc.head o k' hp
    refine ⟨by rw [(hst.fields k').1]; exact h1, by rw [(hst.fields k').2.1]; exact h2, ?_⟩
    by_cases he : k' = k
    · rw [he] at h3 ⊢
      rw [hst.self.2.2.2.2.2.2.1]
      exact h3
    · -- the newest version is covered by no copy
      rw [hst.other k' he fun hins => hc.newest o k k' hp hins]
      exact h3
  · intro n k' hn hp
    rw [(hst.fields n).1] at hn
    rw [hst.pCopy_eq hn] at hp
    have hl := hc.link n k' hn hp
    have hk' : k' ≠ k := by
      rintro rfl
      exact hhk.unstamped hl.committed
    constructor
    · rw [(hst.fields k').1]
      exact hl.inserted
    · rw [(hst.fields k').2.1, (hst.fields n).2.1]
      exact hl.obj
    · rw [Copy.Committed, hst.wrtClk hk']
      exact hl.committed
    · rw [(hst.fields n).2.2.2.2, hst.wrtClk hk']
      exact hl.next
    · intro hcom
      rw [hst.wrtClk hk']
      by_cases he : n = k
      · subst he
        have hb := ((h.threads t).after n hk).older hn k' hp
        rw [hst.self.1]
        omega
      · rw [hst.wrtClk he]
        rw [Copy.Committed, hst.wrtClk he] at hcom
        exact hl.gap hcom
    · intro hcom
      by_cases he : n = k
      · subst he
        rw [hst.old k' hk' hn hp, hst.self.1]
      · rw [hst.prev_eq hc hn hp he, hst.wrtClk he]
        rw [Copy.Committed, hst.wrtClk he] at hcom
        exact hl.prev hcom
  · intro n hn hcom
    rw [(hst.fields n).1] at hn
    have he : n ≠ k := by
      rintro rfl
      rw [Copy.Committed, hst.self.1] at hcom
      exact hcom (Nat.ne_of_lt hW)
    rw [Copy.Committed, hst.wrtClk he] at hcom
    obtain ⟨h1, h2⟩ := hc.unstamped n hn hcom
    rw [(hst.fields n).2.1, hst.pCopy, hst.lock _ (h.obj_ne hk h2 he)]
    exact ⟨h1, h2⟩
  · intro n n' k' hn hn' hp hp'
    rw [(hst.fields n).1] at hn
    rw [(hst.fields n').1] at hn'
    rw [hst.pCopy_eq hn] at hp
    rw [hst.pCopy_eq hn'] at hp'
    exact hc.one n n' k' hn hn' hp hp'
  · intro o n k' hp hn
    rw [hst.pCopy] at hp
    rw [(hst.fields n).1] at hn
    rw [hst.pCopy_eq hn]
    exact hc.newest o n k' hp hn

/-- A copy is stamped and its object unlocked. -/
theorem Inv.stamps (h : Inv B s) {ks : List ℕ} (hpc : (s.threads t).pc = .stamp W (k :: ks)) :
    k ∈ (s.threads t).held ∧ Stamps s (unlockCommit s k W) k W := by
  have hp := (h.threads t).pc
  rw [hpc] at hp
  have hk : k ∈ (s.threads t).held := by
    rw [Thread.held, hpc]
    exact List.mem_cons_self ..
  exact ⟨hk, stamps_unlockCommit h hk (hp.2.2.1 k (List.mem_cons_self ..))⟩

theorem inv_stamp (h : Inv B s) {ks : List ℕ} (hpc : (s.threads t).pc = .stamp W (k :: ks)) :
    Inv B ((unlockCommit s k W).setPc t (.stamp W ks)) := by
  have hc := h.chains
  have ht := h.threads t
  have hp := ht.pc
  rw [hpc] at hp
  obtain ⟨h1, h2, h3, h4, h5, h6⟩ := hp
  have hheld : (s.threads t).held = k :: ks := by rw [Thread.held, hpc]
  obtain ⟨hk, hst⟩ := h.stamps hpc
  have hhk := ht.holds k hk
  have hchains := hst.chains h hk h6 (h4 _ hhk.ws) h5
  -- a copy that is not stamped yet and is not `k` stays as it is
  have hsame : ∀ {k'}, k' ≠ k → ¬ (s.copies k').Committed →
      (unlockCommit s k W).copies k' = s.copies k' := by
    intro k' hne hcom
    refine hst.other k' hne fun hins hp' => hcom ?_
    exact (hc.link k k' hins hp').committed
  refine h.next (t := t) (hchains.congr {}) ?_ ?_
  · intro u hu
    refine ⟨by rw [setPc_threads, if_neg hu, hst.threads], Nat.le_of_eq hst.numCopies.symm,
      Nat.le_of_eq hst.numWss.symm, fun k' _ => (hst.fields k').2.2.2.1, ?_, ?_, ?_, ?_, ?_, ?_⟩
    · intro k' _ hcom
      refine hst.wrtClk ?_
      rintro rfl
      exact hhk.unstamped hcom
    · intro w _
      show ((unlockCommit s k W).wss w).thread = _
      rw [hst.wss]
    · intro w _ _
      show ((unlockCommit s k W).wss w).wrtClk = _
      rw [hst.wss]
    · intro w _ _
      show ((unlockCommit s k W).wss w).wrtClk = _
      rw [hst.wss]
    · intro k' _ hown hcom
      exact hsame (h.ne_of_owner hk hu hown) hcom
    · intro k' _ hown _ hl
      have hno := h.obj_ne hk hl (h.ne_of_owner hk hu hown)
      show (unlockCommit s k W).pLock _ = _ ∧ ((unlockCommit s k W).pCopy _ = _ ∨ _)
      rw [hst.lock _ hno, hst.pCopy]
      exact ⟨hl, Or.inl rfl⟩
  · rw [setPc_threads, if_pos rfl]
    have hne : ∀ k' ∈ ks, k' ≠ k := by
      rintro k' hk' rfl
      exact (List.nodup_cons.mp h2).1 hk'
    have hmem : ∀ k' ∈ ks, k' ∈ (s.threads t).held := by
      intro k' hk'
      rw [hheld]
      exact List.mem_cons_of_mem _ hk'
    have h₁ : ThreadOk B (unlockCommit s k W) t
        { (unlockCommit s k W).threads t with pc := .stamp W ks } := by
      rw [hst.threads]
      refine ⟨?_, ht.localClk, ht.nodup, ?_, ?_, ?_, (List.nodup_cons.mp h2).2, ?_, ?_, h5, h6⟩
      · intro w hw
        rw [hst.numWss, hst.wss]
        exact ht.ws w hw
      · intro k' hk'
        obtain ⟨g1, g2, g3, g4⟩ := ht.holds k' (hmem k' hk')
        have he := hsame (hne k' hk') g3
        refine ⟨by rw [hst.numCopies]; exact g1, by rw [he]; exact g2, by rw [he]; exact g3, ?_⟩
        rw [he, hst.lock _ (h.obj_ne hk g4 (hne k' hk'))]
        exact g4
      · intro k' hk'
        obtain ⟨g1, g2⟩ := ht.after k' (hmem k' hk')
        have he := hsame (hne k' hk') (ht.holds k' (hmem k' hk')).unstamped
        constructor
        · intro hi k₀ hk₀
          rw [he] at hi hk₀
          rw [hst.pCopy] at hk₀
          obtain ⟨g3, g4⟩ := g1 hi k₀ hk₀
          have hne₀ : k₀ ≠ k := by
            rintro rfl
            exact hhk.unstamped g3
          rw [Copy.Committed, hst.wrtClk hne₀]
          exact ⟨g3, g4⟩
        · intro hi k₀ hk₀
          rw [he] at hi hk₀
          have hne₀ : k₀ ≠ k := by
            rintro rfl
            exact hhk.unstamped (hc.link k' k₀ hi hk₀).committed
          rw [hst.wrtClk hne₀]
          exact g2 hi k₀ hk₀
      · exact fun k' hk' => h1 k' (List.mem_cons_of_mem _ hk')
      · intro k' hk'
        rw [hsame (hne k' hk') (ht.holds k' (hmem k' hk')).unstamped]
        exact h3 k' (List.mem_cons_of_mem _ hk')
      · intro w hw
        rw [hst.wss]
        exact h4 w hw
    exact h₁.frame hchains (Frame.of_same {})

/-- The newest version of an object that the thread has locked and not yet inserted. -/
theorem Inv.newest_committed (h : Inv B s) (hk : k ∈ (s.threads t).held)
    (hins : (s.copies k).inserted = false) :
    ∀ k', s.pCopy (s.copies k).obj = some k' → (s.copies k').Committed ∧ k' < s.numCopies := by
  intro k' hk'
  refine ⟨(((h.threads t).after k hk).head hins k' hk').1, ?_⟩
  exact (h.chains.alloc k' (h.chains.head _ k' hk').1).1

/-- A copy to be inserted: `wrt_clk_prev` is set, and the newest version is loaded. -/
theorem inv_moveStart (h : Inv B s) {ks : List ℕ} (hpc : (s.threads t).pc = .move (k :: ks))
    (hkind : (s.copies k).kind = .copy) :
    Inv B ((s.setCopy k { s.copies k with wrtClkPrev := maxVersion }).setPc t
      (.moveInit k (s.pCopy (s.copies k).obj) ks)) := by
  have hp := (h.threads t).pc
  rw [hpc] at hp
  obtain ⟨hm, hu⟩ := hp
  have hk : k ∈ (s.threads t).copies := hm.sub k (List.mem_cons_self ..)
  have hins := hm.waiting k (List.mem_cons_self ..)
  have hold := h.newest_committed (t := t) (by rw [held_eq (by rw [hpc]; exact nofun)]; exact hk) hins
  have hfields : ∀ k', ((s.setCopy k { s.copies k with wrtClkPrev := maxVersion }).copies k') =
      { s.copies k' with wrtClkPrev := if k' = k then maxVersion else (s.copies k').wrtClkPrev } := by
    intro k'
    rw [setCopy_copies]
    split
    · rename_i he
      rw [he]
    · rfl
  refine h.setOwn (by rw [hpc]; exact nofun) nofun hk hins rfl rfl rfl hins
    ⟨⟨⟨hm.sub, hm.nodup, ?_, ?_⟩, ?_, ?_, ?_⟩, hu⟩
  · intro k' hk'
    rw [hfields]
    exact hm.waiting k' hk'
  · intro k' hk' _
    rw [hfields]
    exact hm.rest k' hk' nofun
  · rw [hfields, if_pos rfl]
  · rw [hfields]
    exact hkind
  · intro k' hk'
    rw [Copy.Committed, hfields]
    exact hold k' hk'

/-- The copy records the version it is going to cover. -/
theorem inv_moveInit (h : Inv B s) {old : Option ℕ} {ks : List ℕ}
    (hpc : (s.threads t).pc = .moveInit k old ks) :
    Inv B ((s.setCopy k { s.copies k with pCopy := old, wrtClkNext := nextClk s old }).setPc t
      (.moveCas k old ks)) := by
  have hp := (h.threads t).pc
  rw [hpc] at hp
  obtain ⟨⟨hm, hprev, hkind, hold⟩, hu⟩ := hp
  have hk : k ∈ (s.threads t).copies := hm.sub k (List.mem_cons_self ..)
  have hins := hm.waiting k (List.mem_cons_self ..)
  have hsame : ∀ {k'}, k' ≠ k → (s.setCopy k { s.copies k with
      pCopy := old, wrtClkNext := nextClk s old }).copies k' = s.copies k' := by
    intro k' hk'
    rw [setCopy_copies, if_neg hk']
  have hself : (s.setCopy k { s.copies k with pCopy := old, wrtClkNext := nextClk s old }).copies k =
      { s.copies k with pCopy := old, wrtClkNext := nextClk s old } := by
    rw [setCopy_copies, if_pos rfl]
  have hwrt : ∀ k', ((s.setCopy k { s.copies k with
      pCopy := old, wrtClkNext := nextClk s old }).copies k').wrtClk = (s.copies k').wrtClk := by
    intro k'
    by_cases he : k' = k
    · rw [he, hself]
    · rw [hsame he]
  refine h.setOwn (by rw [hpc]; exact nofun) nofun hk hins rfl rfl rfl hins
    ⟨⟨⟨hm.sub, hm.nodup, ?_, ?_⟩, ?_, ?_, ?_⟩, hu, ?_, ?_⟩
  · intro k' hk'
    by_cases he : k' = k
    · rw [he, hself]
      exact hins
    · rw [hsame he]
      exact hm.waiting k' hk'
  · intro k' hk' hne
    rw [hsame (by simpa using hne)]
    exact hm.rest k' hk' hne
  · rw [hself]
    exact hprev
  · rw [hself]
    exact hkind
  · intro k' hk'
    rw [Copy.Committed, hwrt]
    exact hold k' hk'
  · rw [hself]
  · rw [hself]
    cases old with
    | none => rfl
    | some k' => exact (hwrt k').symm

theorem inv_commitStep (h : Inv B s) {v : ℕ} (hs : commitStep B s t v = some s') : Inv B s' := by
  have ht := h.threads t
  have hp := ht.pc
  unfold commitStep at hs
  dsimp only at hs
  split at hs
  · rename_i k ks hpc
    rw [hpc] at hp
    have hskip : Inv B (s.setPc t (.move ks)) :=
      h.setPc (by rw [hpc]; exact nofun) nofun
        ⟨⟨fun k' hk' => hp.1.sub k' (List.mem_cons_of_mem _ hk'), (List.nodup_cons.mp hp.1.nodup).2,
          fun k' hk' => hp.1.waiting k' (List.mem_cons_of_mem _ hk'), hp.1.rest⟩, hp.2⟩
    split at hs
    · rename_i hkind
      cases hs
      exact inv_moveStart h hpc hkind
    · cases hs
      exact hskip
    · cases hs
      exact hskip
  · rename_i k old ks hpc
    cases hs
    exact inv_moveInit h hpc
  · rename_i k old ks hpc
    split at hs
    · rename_i heq
      cases hs
      rw [← heq] at hpc
      exact inv_moveCas h hpc
    · -- the newest version was detached in between: load again
      cases hs
      rw [hpc] at hp
      obtain ⟨hi, hu, -⟩ := hp
      have hk := hi.moving.sub k (List.mem_cons_self ..)
      refine h.setPc (by rw [hpc]; exact nofun) nofun
        ⟨⟨⟨hi.moving.sub, hi.moving.nodup, hi.moving.waiting, hi.moving.rest⟩, hi.prev, hi.kind, ?_⟩,
          hu⟩
      exact h.newest_committed (t := t) (by rw [held_eq (by rw [hpc]; exact nofun)]; exact hk)
        (hi.moving.waiting k (List.mem_cons_self ..))
  · rename_i hpc
    rw [hpc] at hp
    split at hs
    · rename_i hv
      cases hs
      rw [gtClock_iff] at hv
      refine h.setPc (by rw [hpc]; exact nofun) nofun
        ⟨⟨hp.1.sub, hp.1.nodup, hp.1.waiting, hp.1.rest⟩, hp.2, ?_, hv.2⟩
      have hv1 := hv.1
      dsimp only
      omega
    · cases hs
  · rename_i W hpc
    obtain ⟨w, hw, rfl⟩ := Option.map_eq_some_iff.mp hs
    exact inv_gotClock h hpc
  · rename_i W hpc
    obtain ⟨w, hw, rfl⟩ := Option.map_eq_some_iff.mp hs
    exact inv_publish h hpc hw
  · rename_i W k ks hpc
    cases hs
    exact inv_stamp h hpc
  · cases hs
    exact h.setThread ⟨nofun, ht.localClk, List.nodup_nil, nofun, nofun, rfl, nofun⟩
  · cases hs

/-! ### Whole runs -/

theorem inv_initial : Inv B initial where
  chains := by
    constructor
    · exact fun k hk => absurd hk (Nat.not_lt_zero k)
    · exact fun k hk => absurd hk (Nat.not_lt_zero k)
    · exact fun k hk => nomatch hk
    · exact fun o k hk => nomatch hk
    · exact fun n k hn => nomatch hn
    · exact fun n hn => nomatch hn
    · exact fun n n' k hn => nomatch hn
    · exact fun o n k hk => nomatch hk
  threads := fun t => ⟨nofun, show 0 < maxVersion by decide, List.nodup_nil, nofun, nofun, rfl, nofun⟩

theorem inv_begin (h : Inv B s) {v : ℕ} (hpc : (s.threads t).pc = .outside) (hv : v < maxVersion) :
    Inv B (s.setThread t { s.threads t with pc := .inTx, localClk := v }) := by
  have ht := h.threads t
  have hp := ht.pc
  rw [hpc] at hp
  have hnil : ({ s.threads t with pc := .inTx, localClk := v } : Thread).held = [] := hp.1
  refine h.setThread ⟨ht.ws, hv, ht.nodup, ?_, ?_, ?_, hp.2⟩
  · rw [hnil]
    exact nofun
  · rw [hnil]
    exact nofun
  · dsimp only
    rw [hp.1]
    exact nofun

theorem inv_free (h : Inv B s) (hpc : (s.threads t).pc = .inTx)
    (hk : k ∈ (s.threads t).copies) : Inv B (s.setCopy k { s.copies k with kind := .free }) := by
  have hp := (h.threads t).pc
  rw [hpc] at hp
  have hself : (s.setCopy k { s.copies k with kind := .free }).setPc t .inTx =
      s.setCopy k { s.copies k with kind := .free } := by
    unfold State.setPc State.setThread State.setCopy
    dsimp only
    rw [← hpc]
    simp
  rw [← hself]
  refine h.setOwn (by rw [hpc]; exact nofun) nofun hk (hp.1 k hk).1 rfl rfl rfl (hp.1 k hk).1
    ⟨?_, hp.2⟩
  intro k' hk'
  unfold Fresh
  rw [setCopy_copies]
  split
  · exact hp.1 k hk
  · exact hp.1 k' hk'

theorem inv_abort (h : Inv B s) (hpc : (s.threads t).pc = .inTx) :
    Inv B { s.setThread t { s.threads t with pc := .outside, ws := none, copies := [] } with
      pLock := fun o => match s.pLock o with
        | none => none
        | some k => if k ∈ (s.threads t).copies then none else some k } := by
  have hc := h.chains
  have ht := h.threads t
  have hp := ht.pc
  rw [hpc] at hp
  have hheld : (s.threads t).held = (s.threads t).copies := held_eq (by rw [hpc]; exact nofun)
  have hchains : Chains B { s with pLock := fun o => match s.pLock o with
      | none => none
      | some k => if k ∈ (s.threads t).copies then none else some k } := by
    refine ⟨hc.ws, hc.stamp, hc.alloc, hc.head, ?_, ?_, hc.one, hc.newest⟩
    · intro n k hn hp'
      exact (hc.link n k hn hp').congr rfl rfl
    · intro n hn hcom
      obtain ⟨h1, h2⟩ := hc.unstamped n hn hcom
      refine ⟨h1, ?_⟩
      have hnot : n ∉ (s.threads t).copies := by
        intro hmem
        have hf := (hp.1 n hmem).1
        have hn' : (s.copies n).inserted = true := hn
        rw [hf] at hn'
        cases hn'
      dsimp only
      rw [h2]
      exact if_neg hnot
  refine h.next (t := t) (hchains.congr {}) ?_ ?_
  · intro u hu
    refine ⟨by simp [hu], Nat.le_refl _, Nat.le_refl _, fun _ _ => rfl, fun _ _ _ => rfl,
      fun _ _ => rfl, fun _ _ _ => rfl, fun _ _ _ => rfl, fun _ _ _ _ => rfl, ?_⟩
    intro k _ hown _ hl
    refine ⟨?_, Or.inl rfl⟩
    dsimp only
    rw [hl]
    refine if_neg fun hmem => ?_
    exact h.ne_of_owner (by rw [hheld]; exact hmem) hu hown rfl
  · dsimp only
    rw [setThread_threads, if_pos rfl]
    exact ⟨nofun, ht.localClk, List.nodup_nil, nofun, nofun, rfl, nofun⟩

/-- The newest version of an object leaves the chain with all others. -/
theorem inv_detach (h : Inv B s) (hcom : (s.copies k).Committed)
    (hk : s.pCopy (s.copies k).obj = some k) : Inv B (s.setPCopy (s.copies k).obj none) := by
  have hc := h.chains
  have hpo : ∀ {o' k'}, (s.setPCopy (s.copies k).obj none).pCopy o' = some k' →
      s.pCopy o' = some k' := by
    intro o' k' hp
    rw [setPCopy_pCopy] at hp
    split at hp
    · cases hp
    · exact hp
  have hf : ∀ u, Frame s (s.setPCopy (s.copies k).obj none) u := by
    intro u
    refine ⟨Nat.le_refl _, Nat.le_refl _, fun _ _ => rfl, fun _ _ _ => rfl, fun _ _ => rfl,
      fun _ _ _ => rfl, fun _ _ _ => rfl, fun _ _ _ _ => rfl, ?_⟩
    intro k' _ _ _ hl
    refine ⟨hl, ?_⟩
    rw [setPCopy_pCopy]
    split
    · exact Or.inr rfl
    · exact Or.inl rfl
  have hchains : Chains B (s.setPCopy (s.copies k).obj none) := by
    refine ⟨hc.ws, hc.stamp, hc.alloc, ?_, ?_, ?_, hc.one, ?_⟩
    · exact fun o' k' hp => hc.head o' k' (hpo hp)
    · exact fun n k' hn hp => (hc.link n k' hn hp).congr rfl rfl
    · intro n hn hun
      obtain ⟨h1, h2⟩ := hc.unstamped n hn hun
      refine ⟨?_, h2⟩
      rw [setPCopy_pCopy, if_neg]
      · exact h1
      · intro ho
        have h1' : s.pCopy (s.copies n).obj = some n := h1
        have ho' : (s.copies n).obj = (s.copies k).obj := ho
        rw [ho', hk, Option.some_inj] at h1'
        exact hun (h1' ▸ hcom)
    · exact fun o' n k' hp hn => hc.newest o' n k' (hpo hp) hn
  exact ⟨hchains, fun u => (h.threads u).frame hc (hf u)⟩

theorem inv_step (h : Inv B s) {a : Op} (hs : step B s a = some s') : Inv B s' := by
  cases a with
  | begin t v =>
    simp only [step, Option.ite_none_right_eq_some, Option.some_inj] at hs
    obtain ⟨⟨hpc, hv⟩, rfl⟩ := hs
    exact inv_begin h hpc hv
  | lock t o kind =>
    simp only [step, Option.ite_none_right_eq_some, Option.some_inj] at hs
    obtain ⟨⟨hpc, -⟩, rfl⟩ := hs
    have hp := (h.threads t).pc
    rw [hpc] at hp
    exact h.setPc (by rw [hpc]; exact nofun) nofun hp
  | lockStep t => exact inv_lockStep h hs
  | free t k =>
    simp only [step, Option.ite_none_right_eq_some, Option.some_inj] at hs
    obtain ⟨⟨hpc, hk⟩, rfl⟩ := hs
    exact inv_free h hpc hk
  | endTx t =>
    simp only [step, Option.ite_none_right_eq_some, Option.some_inj] at hs
    obtain ⟨hpc, rfl⟩ := hs
    have hp := (h.threads t).pc
    rw [hpc] at hp
    split
    · rename_i hnil
      exact h.setPc (by rw [hpc]; exact nofun) nofun ⟨hnil, hp.2⟩
    · refine h.setPc (by rw [hpc]; exact nofun) nofun
        ⟨⟨fun k hk => hk, (h.threads t).nodup, fun k hk => (hp.1 k hk).1, ?_⟩, hp.2⟩
      exact fun k hk _ => Or.inr (hp.1 k hk).2
  | commitStep t v => exact inv_commitStep h hs
  | abort t =>
    simp only [step, Option.ite_none_right_eq_some, Option.some_inj] at hs
    obtain ⟨hpc, rfl⟩ := hs
    exact inv_abort h hpc
  | detach k =>
    simp only [step, Option.ite_none_right_eq_some, Option.some_inj] at hs
    obtain ⟨⟨hcom, hk⟩, rfl⟩ := hs
    exact inv_detach h hcom hk

end TimeStone.VersionChain
