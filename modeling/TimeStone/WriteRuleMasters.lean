/-
The masters and the checkpoints.

`Masters` is about `np_cur_act`: what is stored in a checkpoint entry or in an original master
is a version below the clock of the round (`Settled`), and when no version of an object is in
its chain, the current master holds the newest one.  A copy is enqueued only when no newer
version is below the clock, so the current master never goes back.  Nothing is said of the
masters of an object that has a tombstone.  `Detaches` and `Writes` are about the calls of
`tvlog_reclaim_x` and `ckptlog_reclaim_x` that are under way, and `Tombs` about the objects that
were freed: they stay locked, so that no transaction reads their masters.

* `Evolves` — what a step of a transaction does to the versions, as far as masters depend on
  it;
* `Masters.visit` — the borderline test finds no newer version below the clock;
* `Masters.same`, `Detaches.same`, `Writes.same` — the steps of the transactions;
* `Masters.append`, `Masters.detach`, `Masters.writeback`, `Masters.store` — the steps of the
  reclamation.
-/
import TimeStone.WriteRuleHistory

namespace TimeStone.WriteRule

open VersionChain (Inv Quiet Inserts Stamps Entering Thread Pc FreeLocked)

variable {B : ℕ} {s s' : State} {c c' c₁ : VersionChain.State} {d : ℕ → Option Origin}
  {t u o k j n e w W q : ℕ}

/-! ### The versions -/

/-- The copy is the newest one, or a newer one records it as the next older one. -/
def Linked (c : VersionChain.State) (k : ℕ) : Prop :=
  c.pCopy (c.copies k).obj = some k ∨
    ∃ n, (c.copies n).inserted = true ∧ (c.copies n).pCopy = some k

/-- How the versions change while transactions run whose clocks are at least `q`. -/
structure Evolves (q : ℕ) (c c' : VersionChain.State) : Prop where
  old : ∀ k, (c.copies k).inserted = true → (c'.copies k).inserted = true ∧
    (c'.copies k).obj = (c.copies k).obj ∧
    ((c.copies k).wrtClk ≠ maxVersion → (c'.copies k).wrtClk = (c.copies k).wrtClk)
  new : ∀ k, (c'.copies k).inserted = true →
    (c.copies k).inserted = true ∧ (c'.copies k).wrtClk = (c.copies k).wrtClk ∨
      q ≤ (c'.copies k).wrtClk
  none : ∀ o, c'.pCopy o = none → c.pCopy o = none ∧ ∀ k, (c'.copies k).inserted = true →
    (c'.copies k).obj = o → (c.copies k).inserted = true ∧ (c'.copies k).wrtClk = (c.copies k).wrtClk
  head : ∀ o k, c'.pCopy o = some k →
    c.pCopy o = some k ∨ (c.copies k).inserted = false ∧ (c.copies k).wrtClk = maxVersion
  link : ∀ k, (c'.copies k).inserted = true →
    (c.copies k).inserted = true ∧ (Linked c k → Linked c' k) ∨ Linked c' k

theorem evolves_quiet (hq : Quiet c c' t) (hi : Inv B c) : Evolves q c c' := by
  have halloc : ∀ j, (c.copies j).inserted = true → j < c.numCopies :=
    fun j hj => (hi.chains.alloc j hj).1
  constructor
  · intro k hk
    rw [hq.inserted, hq.obj k (halloc k hk), hq.wrtClk k (halloc k hk)]
    exact ⟨hk, rfl, fun _ => rfl⟩
  · intro k hk
    rw [hq.inserted] at hk
    exact Or.inl ⟨hk, hq.wrtClk k (halloc k hk)⟩
  · intro o ho
    rw [hq.head] at ho
    refine ⟨ho, fun k hk _ => ?_⟩
    rw [hq.inserted] at hk
    exact ⟨hk, hq.wrtClk k (halloc k hk)⟩
  · intro o k hk
    rw [hq.head] at hk
    exact Or.inl hk
  · intro k hk
    rw [hq.inserted] at hk
    refine Or.inl ⟨hk, ?_⟩
    rintro (h | ⟨n, hn, h⟩)
    · left
      rw [hq.head, hq.obj k (halloc k hk)]
      exact h
    · right
      refine ⟨n, ?_, ?_⟩
      · rw [hq.inserted]
        exact hn
      · rw [hq.link n hn]
        exact h

theorem evolves_insert (hi : Inv B c) (he : Entering c t k) (hins : Inserts c c₁ k)
    (hq : q ≤ maxVersion) (hcop : c'.copies = c₁.copies) (hhead : c'.pCopy = c₁.pCopy) :
    Evolves q c c' := by
  have hkm := held_wrtClk hi he.held
  have hclk : ∀ j, (c'.copies j).wrtClk = (c.copies j).wrtClk := by
    intro j
    rw [hcop]
    exact (hins.fields j).2.2.1
  have hobj : ∀ j, (c'.copies j).obj = (c.copies j).obj := by
    intro j
    rw [hcop]
    exact (hins.fields j).1
  have hlink : ∀ j, (c'.copies j).pCopy = (c.copies j).pCopy := by
    intro j
    rw [hcop]
    exact (hins.fields j).2.2.2
  have hold : ∀ j, (c.copies j).inserted = true → (c'.copies j).inserted = true := by
    intro j hj
    rw [hcop, hins.other j (he.ne hj)]
    exact hj
  have hcases : ∀ j, (c'.copies j).inserted = true →
      j = k ∨ (c.copies j).inserted = true := by
    intro j hj
    rw [hcop] at hj
    rcases hins.cases hj with h1 | ⟨-, h2, -⟩
    · exact Or.inl h1
    · exact Or.inr h2
  have hself : (c'.copies k).inserted = true := by
    rw [hcop, hins.self]
  have hheadk : c'.pCopy (c'.copies k).obj = some k := by
    rw [hhead, hobj]
    exact hins.head
  constructor
  · intro j hj
    exact ⟨hold j hj, hobj j, fun _ => hclk j⟩
  · intro j hj
    rcases hcases j hj with rfl | hj
    · rw [hclk, hkm]
      exact Or.inr hq
    · exact Or.inl ⟨hj, hclk j⟩
  · intro o ho
    have hne : o ≠ (c.copies k).obj := by
      rintro rfl
      rw [hhead, hins.head] at ho
      cases ho
    rw [hhead, hins.pCopy o hne] at ho
    refine ⟨ho, fun j hj hjo => ?_⟩
    rcases hcases j hj with rfl | hj
    · exact absurd ((hobj j).symm.trans hjo).symm hne
    · exact ⟨hj, hclk j⟩
  · intro o j hj
    by_cases ho : o = (c.copies k).obj
    · rw [ho, hhead, hins.head, Option.some_inj] at hj
      subst hj
      exact Or.inr ⟨he.fresh, hkm⟩
    · rw [hhead, hins.pCopy o ho] at hj
      exact Or.inl hj
  · intro j hj
    rcases hcases j hj with rfl | hj
    · exact Or.inr (Or.inl hheadk)
    · refine Or.inl ⟨hj, ?_⟩
      rintro (h | ⟨n, hn, h⟩)
      · by_cases ho : (c.copies j).obj = (c.copies k).obj
        · -- the new version records the one that was the newest
          right
          refine ⟨k, hself, ?_⟩
          rw [hlink, he.pCopy, ← ho]
          exact h
        · left
          rw [hobj, hhead, hins.pCopy _ ho]
          exact h
      · right
        refine ⟨n, hold n hn, ?_⟩
        rw [hlink]
        exact h

theorem evolves_stamp (hi : Inv B c) (hk : k ∈ (c.threads t).held) (hst : Stamps c c₁ k W)
    (hW : q ≤ W) (hcop : c'.copies = c₁.copies) (hhead : c'.pCopy = c₁.pCopy) :
    Evolves q c c' := by
  have hkm := held_wrtClk hi hk
  have hins : ∀ j, (c'.copies j).inserted = (c.copies j).inserted := by
    intro j
    rw [hcop]
    exact (hst.fields j).1
  have hobj : ∀ j, (c'.copies j).obj = (c.copies j).obj := by
    intro j
    rw [hcop]
    exact (hst.fields j).2.1
  have hclk : ∀ j, j ≠ k → (c'.copies j).wrtClk = (c.copies j).wrtClk := by
    intro j hj
    rw [hcop]
    exact hst.wrtClk hj
  have hhead' : c'.pCopy = c.pCopy := hhead.trans hst.pCopy
  constructor
  · intro j hj
    rw [hins, hobj]
    refine ⟨hj, rfl, fun hw => hclk j ?_⟩
    rintro rfl
    exact hw hkm
  · intro j hj
    rw [hins] at hj
    by_cases hjk : j = k
    · refine Or.inr ?_
      rw [hjk, hcop, hst.self.1]
      exact hW
    · exact Or.inl ⟨hj, hclk j hjk⟩
  · intro o ho
    rw [hhead'] at ho
    refine ⟨ho, fun j hj hjo => ?_⟩
    rw [hins] at hj
    rw [hobj] at hjo
    refine ⟨hj, hclk j ?_⟩
    -- a version without a stamp is in the chain
    rintro rfl
    have hp := (hi.chains.unstamped j hj fun hcom => hcom hkm).1
    rw [hjo, ho] at hp
    cases hp
  · intro o j hj
    rw [hhead'] at hj
    exact Or.inl hj
  · intro j hj
    rw [hins] at hj
    refine Or.inl ⟨hj, ?_⟩
    rintro (h | ⟨n, hn, h⟩)
    · left
      rw [hobj, hhead']
      exact h
    · right
      refine ⟨n, ?_, ?_⟩
      · rw [hins]
        exact hn
      · rw [hcop, hst.pCopy_eq hn]
        exact h

/-! ### The masters -/

/-- The version in a master. -/
def State.ver (s : State) (o : ℕ) : Master → Option ℕ
  | .org => s.npOrgAct o
  | .entry e => some (s.entries e).ver

/-- The version in the current master. -/
def State.curVer (s : State) (o : ℕ) : Option ℕ := s.ver o (s.npCurAct o)

/-- The version `n` of the object is below the clock of the last detection, and was taken to a
checkpoint log. -/
structure Settled (B : ℕ) (s : State) (o n : ℕ) : Prop where
  inserted : (s.chain.copies n).inserted = true
  obj : (s.chain.copies n).obj = o
  clk : (s.chain.copies n).wrtClk + B < s.qp0
  detached : (s.slot n).detached = true

/-- No version of the object that is newer than `k` is below the clock. -/
def NewestBelow (B : ℕ) (s : State) (k : ℕ) : Prop :=
  ∀ j, (s.chain.copies j).inserted = true → (s.chain.copies j).obj = (s.chain.copies k).obj →
    (s.chain.copies k).wrtClk < (s.chain.copies j).wrtClk → s.qp0 ≤ (s.chain.copies j).wrtClk + B

/-- A checkpoint entry of the object is a tombstone, or was marked as one. -/
def State.Tombstoned (s : State) (o : ℕ) : Prop :=
  ∃ e < s.numEntries, (s.entries e).obj = o ∧ (s.entries e).tombstone = true

structure Masters (B : ℕ) (s : State) : Prop where
  le : s.qp0 ≤ maxVersion
  org : ∀ o n, ¬ s.Tombstoned o → s.npOrgAct o = some n → Settled B s o n
  entry : ∀ e < s.numEntries, ¬ s.Tombstoned (s.entries e).obj →
    Settled B s (s.entries e).obj (s.entries e).ver
  cur : ∀ o e, s.npCurAct o = .entry e → e < s.numEntries ∧ (s.entries e).obj = o
  newest : ∀ o, ¬ s.Tombstoned o → s.chain.pCopy o = none →
    ∀ j, (s.chain.copies j).inserted = true → (s.chain.copies j).obj = o →
      ∃ n, s.curVer o = some n ∧ (s.chain.copies j).wrtClk ≤ (s.chain.copies n).wrtClk
  linked : ∀ k, (s.chain.copies k).inserted = true → (s.slot k).detached = false →
    Linked s.chain k

/-- The thread `t` is about to enqueue the copy. -/
structure Enqueuing (B : ℕ) (s : State) (t k : ℕ) : Prop where
  owner : s.owner k = t
  inserted : (s.chain.copies k).inserted = true
  clk : (s.chain.copies k).wrtClk + B < s.qp0
  fresh : (s.slot k).detached = false
  newest : NewestBelow B s k

/-- The thread `t` is about to detach the copy. -/
structure Detaching (B : ℕ) (s : State) (t k : ℕ) : Prop where
  owner : s.owner k = t
  settled : Settled B s (s.chain.copies k).obj k
  cur : ¬ s.Tombstoned (s.chain.copies k).obj → ∃ n, s.curVer (s.chain.copies k).obj = some n ∧
    (s.chain.copies k).wrtClk ≤ (s.chain.copies n).wrtClk

/-- The calls of `tvlog_reclaim_x`. -/
structure Detaches (B : ℕ) (s : State) : Prop where
  enq : ∀ t k, s.tv t = .enq k → Enqueuing B s t k
  detach : ∀ t k, s.tv t = .detach k ∨ s.tv t = .detachCas k → Detaching B s t k
  inserted : ∀ k, (s.slot k).detached = true → (s.chain.copies k).inserted = true
  gone : ∀ k, (s.slot k).detached = true → s.chain.pCopy (s.chain.copies k).obj = some k →
    s.tv (s.owner k) = .detach k ∨ s.tv (s.owner k) = .detachCas k

/-- The calls of `ckptlog_reclaim_x`. -/
structure Writes (s : State) : Prop where
  entry : ∀ t e, s.ck t = .writeback e ∨ s.ck t = .store e → e < s.numEntries
  store : ∀ t e, s.ck t = .store e → s.npCurAct (s.entries e).obj = .entry e →
    s.npOrgAct (s.entries e).obj = some (s.entries e).ver

/-- The copy `k` is the one by which its object was freed, before the clock. -/
structure Grave (B : ℕ) (s : State) (k : ℕ) : Prop where
  lt : k < s.chain.numCopies
  kind : (s.chain.copies k).kind = .free
  clk : (s.chain.copies k).wrtClk + B < s.qp0

/-- The freed copy to which a tombstone is given. -/
def TvPc.grave : TvPc → Option ℕ
  | .tomb _ k | .tombEnq _ k | .tombMark _ k => some k
  | _ => none

/-- The freed objects, and the tombstones. -/
structure Tombs (B : ℕ) (s : State) : Prop where
  locked : FreeLocked s.chain
  call : ∀ t k, (s.tv t).grave = some k → Grave B s k
  grave : ∀ e < s.numEntries, (s.entries e).tombstone = true →
    ∃ k, (s.chain.copies k).obj = (s.entries e).obj ∧ Grave B s k

/-- An object that is locked has no tombstone. -/
theorem Tombs.not_tombstoned (h : Tombs B s) (hi : Inv B s.chain) (hle : s.qp0 ≤ maxVersion)
    (hk : k ∈ (s.chain.threads t).held) : ¬ s.Tombstoned (s.chain.copies k).obj := by
  rintro ⟨e, he, heo, htomb⟩
  obtain ⟨j, hjo, hj⟩ := h.grave e he htomb
  have hclk := hj.clk
  have hh := (hi.threads t).holds k hk
  have hl := h.locked j hj.lt (by omega) hj.kind
  rw [hjo, heo, hh.lock, Option.some_inj] at hl
  have hkm := held_wrtClk hi hk
  rw [hl] at hkm
  omega

theorem Masters.settled_ver (h : Masters B s) {m : Master} (hb : ¬ s.Tombstoned o)
    (hm : ∀ e, m = .entry e → e < s.numEntries ∧ (s.entries e).obj = o)
    (hn : s.ver o m = some n) : Settled B s o n := by
  cases m with
  | org => exact h.org o n hb hn
  | entry e =>
    obtain ⟨h1, h2⟩ := hm e rfl
    have := h.entry e h1 (h2.symm ▸ hb)
    rw [State.ver, Option.some_inj] at hn
    rw [h2, hn] at this
    exact this

theorem Masters.settled_cur (h : Masters B s) (hb : ¬ s.Tombstoned o) (hn : s.curVer o = some n) :
    Settled B s o n :=
  h.settled_ver hb (fun e he => h.cur o e he) hn

/-- The current master holds a version that is not newer than the one that is enqueued. -/
theorem Masters.cur_le (h : Masters B s) (hb : ¬ s.Tombstoned (s.chain.copies k).obj)
    (hk : NewestBelow B s k) (hn : s.curVer (s.chain.copies k).obj = some n) :
    (s.chain.copies n).wrtClk ≤ (s.chain.copies k).wrtClk := by
  have hs := h.settled_cur hb hn
  by_contra hlt
  have := hk n hs.inserted hs.obj (by omega)
  have := hs.clk
  omega

/-! ### The borderline test -/

/-- A version that is not the newest one has a successor right behind it. -/
theorem History.successor (h : History B c d) (hi : Inv B c)
    (hn : (c.copies n).inserted = true) (hl : (c.copies n).pCopy = some k)
    (hj : (c.copies j).inserted = true) (hjo : (c.copies j).obj = (c.copies k).obj)
    (hlt : (c.copies k).wrtClk < (c.copies j).wrtClk) :
    (c.copies n).wrtClk ≤ (c.copies j).wrtClk := by
  obtain ⟨x, hx, hsrc⟩ := h.link n k hn hl
  have hf := h.rule n x hx (Or.inl hn)
  have hobj : (c.copies k).obj = (c.copies n).obj := (hi.chains.link n k hn hl).obj
  by_cases hjn : j = n
  · exact Nat.le_of_eq (by rw [hjn])
  · rcases hf.rest j hj (hjo.trans hobj) hjn with h1 | ⟨m, hm, h1⟩
    · exact Nat.le_of_lt h1
    · rw [hsrc, Option.some_inj] at hm
      subst hm
      omega

/-- Two versions of an object have different clocks. -/
theorem History.clk_ne (h : History B c d) (hk : (c.copies k).inserted = true)
    (hj : (c.copies j).inserted = true) (hjo : (c.copies j).obj = (c.copies k).obj)
    (hne : j ≠ k) : (c.copies j).wrtClk ≠ (c.copies k).wrtClk := by
  obtain ⟨x, hx⟩ := h.done k hk
  have hf := h.rule k x hx (Or.inl hk)
  have hb := hf.before
  rcases hf.rest j hj hjo hne with h1 | ⟨n, hn, h1⟩
  · omega
  · have := (hf.src n hn).2.2
    omega

/-- When the borderline test succeeds for a copy that is not detached, no newer version is
below the clock. -/
theorem Masters.visit (h : Masters B s) (hh : History B s.chain d) (hi : Inv B s.chain)
    (hown : s.owner k = t) (hk : (s.chain.copies k).inserted = true)
    (hfresh : (s.slot k).detached = false)
    (hb : atBorderline B (s.chain.copies k).wrtClk (s.chain.copies k).wrtClkPrev s.qp0
      s.lastCkpt) : Enqueuing B s t k := by
  have hprev : (s.chain.copies k).wrtClk + B < s.qp0 ∧
      ((s.chain.copies k).wrtClkPrev = maxVersion ∨
        s.qp0 ≤ (s.chain.copies k).wrtClkPrev + B) := by
    unfold atBorderline at hb
    split at hb
    · rename_i hm
      exact ⟨ltClock_iff.mp hb, Or.inl hm⟩
    · exact ⟨ltClock_iff.mp hb.2.1, Or.inr (gteClock_iff.mp hb.1)⟩
  refine ⟨hown, hk, hprev.1, hfresh, ?_⟩
  intro j hj hjo hlt
  rcases h.linked k hk hfresh with hp | ⟨n, hn, hl⟩
  · -- the newest version has no newer one
    by_cases hjk : j = k
    · rw [hjk] at hlt
      omega
    · have := hh.head _ k j hp hj hjo hjk
      omega
  · have hle := hh.successor hi hn hl hj hjo hlt
    by_cases hcn : (s.chain.copies n).wrtClk = maxVersion
    · have := h.le
      omega
    · have hw := (hi.chains.link n k hn hl).prev hcn
      rcases hprev.2 with hm | hge
      · rw [hw] at hm
        exact absurd hm hcn
      · omega

/-! ### Steps of the transactions -/

/-- A step that changes no version except as `Evolves` allows. -/
structure SameVersions (s s' : State) : Prop where
  evolves : Evolves s.qp0 s.chain s'.chain
  owner : ∀ k, (s.chain.copies k).inserted = true → s'.owner k = s.owner k
  qp0 : s'.qp0 = s.qp0
  detached : ∀ k, (s.chain.copies k).inserted = true → (s'.slot k).detached = (s.slot k).detached
  detached' : ∀ k, (s'.slot k).detached = true → (s.slot k).detached = true

/-- A step that changes no master either. -/
structure SameMasters (s s' : State) : Prop extends SameVersions s s' where
  cur : s'.npCurAct = s.npCurAct
  org : s'.npOrgAct = s.npOrgAct
  obj : ∀ e, (s'.entries e).obj = (s.entries e).obj
  ver : ∀ e, (s'.entries e).ver = (s.entries e).ver
  num : s'.numEntries = s.numEntries
  tomb : ∀ e, (s.entries e).tombstone = true → (s'.entries e).tombstone = true

/-- A tombstone stays one. -/
theorem SameMasters.tombstoned (h : SameMasters s s') (ho : s.Tombstoned o) : s'.Tombstoned o := by
  obtain ⟨e, he, heo, ht⟩ := ho
  exact ⟨e, h.num ▸ he, (h.obj e).trans heo, h.tomb e ht⟩

theorem SameMasters.curVer (h : SameMasters s s') (o : ℕ) : s'.curVer o = s.curVer o := by
  unfold State.curVer State.ver
  rw [h.cur, h.org]
  cases s.npCurAct o with
  | org => rfl
  | entry e => exact congrArg some (h.ver e)

theorem evolves_refl : Evolves q c c :=
  ⟨fun _ hk => ⟨hk, rfl, fun _ => rfl⟩, fun _ hk => Or.inl ⟨hk, rfl⟩,
    fun _ ho => ⟨ho, fun _ hk _ => ⟨hk, rfl⟩⟩, fun _ _ hk => Or.inl hk,
    fun _ hk => Or.inl ⟨hk, fun hl => hl⟩⟩

/-- Steps that leave the versions alone. -/
theorem SameVersions.of_chain (hc : s'.chain = s.chain) (hq : s'.qp0 = s.qp0)
    (hd : ∀ k, (s'.slot k).detached = (s.slot k).detached) : SameVersions s s' where
  evolves := hc ▸ evolves_refl
  owner := fun k _ => by rw [State.owner, State.owner, hc]
  qp0 := hq
  detached := fun k _ => hd k
  detached' := fun k hk => (hd k) ▸ hk

theorem Settled.same (h : Settled B s o n) (hm : SameVersions s s') (hle : s.qp0 ≤ maxVersion) :
    Settled B s' o n := by
  have hclk := h.clk
  obtain ⟨h1, h2, h3⟩ := hm.evolves.old n h.inserted
  constructor
  · exact h1
  · rw [h2]
    exact h.obj
  · rw [h3 (by omega), hm.qp0]
    exact hclk
  · rw [hm.detached n h.inserted]
    exact h.detached

/-- A version below the clock keeps its stamp. -/
theorem SameVersions.wrtClk (hm : SameVersions s s') (hle : s.qp0 ≤ maxVersion)
    (hk : (s.chain.copies k).inserted = true) (hlt : (s.chain.copies k).wrtClk + B < s.qp0) :
    (s'.chain.copies k).wrtClk = (s.chain.copies k).wrtClk :=
  (hm.evolves.old k hk).2.2 (by omega)

/-- When the current master holds the newest version, it does so after the step. -/
theorem Masters.newest_same (h : Masters B s) (hm : SameVersions s s')
    (hcur : ∀ o, s'.curVer o = s.curVer o) (hb : ¬ s.Tombstoned o) (ho : s'.chain.pCopy o = none)
    (hj : (s'.chain.copies j).inserted = true) (hjo : (s'.chain.copies j).obj = o) :
    ∃ n, s'.curVer o = some n ∧ (s'.chain.copies j).wrtClk ≤ (s'.chain.copies n).wrtClk := by
  obtain ⟨h1, h2⟩ := hm.evolves.none o ho
  obtain ⟨h3, h4⟩ := h2 j hj hjo
  rw [(hm.evolves.old j h3).2.1] at hjo
  obtain ⟨n, hn, hle⟩ := h.newest o hb h1 j h3 hjo
  have hs := h.settled_cur hb hn
  refine ⟨n, ?_, ?_⟩
  · rw [hcur]
    exact hn
  · rw [h4, hm.wrtClk h.le hs.inserted hs.clk]
    exact hle

theorem Masters.linked_same (h : Masters B s) (hm : SameVersions s s')
    (hk : (s'.chain.copies k).inserted = true) (hd : (s'.slot k).detached = false) :
    Linked s'.chain k := by
  rcases hm.evolves.link k hk with ⟨h1, h2⟩ | h1
  · rw [hm.detached k h1] at hd
    exact h2 (h.linked k h1 hd)
  · exact h1

theorem Masters.same (h : Masters B s) (hm : SameMasters s s') : Masters B s' := by
  have hv := hm.toSameVersions
  constructor
  · rw [hm.qp0]
    exact h.le
  · intro o n hb hn
    rw [hm.org] at hn
    exact (h.org o n (fun ht => hb (hm.tombstoned ht)) hn).same hv h.le
  · intro e hlt hb
    rw [hm.num] at hlt
    rw [hm.obj] at hb
    rw [hm.obj, hm.ver]
    exact (h.entry e hlt fun ht => hb (hm.tombstoned ht)).same hv h.le
  · intro o e hc
    rw [hm.cur] at hc
    rw [hm.num, hm.obj]
    exact h.cur o e hc
  · exact fun o hb ho j hj hjo =>
      h.newest_same hv hm.curVer (fun ht => hb (hm.tombstoned ht)) ho hj hjo
  · exact fun k hk hd => h.linked_same hv hk hd

theorem Enqueuing.same (h : Enqueuing B s t k) (hm : SameVersions s s')
    (hle : s.qp0 ≤ maxVersion) : Enqueuing B s' t k := by
  obtain ⟨h0, h1, h2, h3, h4⟩ := h
  obtain ⟨g1, g2, -⟩ := hm.evolves.old k h1
  have hclk := hm.wrtClk hle h1 h2
  constructor
  · rw [hm.owner k h1]
    exact h0
  · exact g1
  · rw [hclk, hm.qp0]
    exact h2
  · rw [hm.detached k h1]
    exact h3
  · intro j hj hjo hlt
    rw [hm.qp0]
    rcases hm.evolves.new j hj with ⟨f1, f2⟩ | f1
    · rw [(hm.evolves.old j f1).2.1, g2] at hjo
      rw [f2, hclk] at hlt
      rw [f2]
      exact h4 j f1 hjo hlt
    · omega

theorem Detaching.same (h : Detaching B s t k) (hm : SameVersions s s')
    (htomb : ∀ o, s.Tombstoned o → s'.Tombstoned o)
    (hcur : ∀ o, ¬ s'.Tombstoned o → s'.curVer o = s.curVer o) (hs : Masters B s) :
    Detaching B s' t k := by
  obtain ⟨h0, h1, h2⟩ := h
  have hobj := (hm.evolves.old k h1.inserted).2.1
  constructor
  · rw [hm.owner k h1.inserted]
    exact h0
  · rw [hobj]
    exact h1.same hm hs.le
  · rw [hobj]
    intro hb
    have hb' : ¬ s.Tombstoned (s.chain.copies k).obj := fun ht => hb (htomb _ ht)
    obtain ⟨n, hn, hle⟩ := h2 hb'
    have hset := hs.settled_cur hb' hn
    refine ⟨n, ?_, ?_⟩
    · rw [hcur _ hb]
      exact hn
    · rw [hm.wrtClk hs.le h1.inserted h1.clk, hm.wrtClk hs.le hset.inserted hset.clk]
      exact hle

theorem Detaches.same (h : Detaches B s) (hm : SameVersions s s')
    (htomb : ∀ o, s.Tombstoned o → s'.Tombstoned o)
    (hcur : ∀ o, ¬ s'.Tombstoned o → s'.curVer o = s.curVer o) (hs : Masters B s)
    (htv : s'.tv = s.tv) : Detaches B s' := by
  constructor
  · intro t k ht
    rw [htv] at ht
    exact (h.enq t k ht).same hm hs.le
  · intro t k ht
    rw [htv] at ht
    exact (h.detach t k ht).same hm htomb hcur hs
  · intro k hd
    exact (hm.evolves.old k (h.inserted k (hm.detached' k hd))).1
  · intro k hd hp
    have hd' := hm.detached' k hd
    have hk := h.inserted k hd'
    rw [(hm.evolves.old k hk).2.1] at hp
    rw [htv, hm.owner k hk]
    rcases hm.evolves.head _ k hp with h1 | ⟨h1, -⟩
    · exact h.gone k hd' h1
    · rw [hk] at h1
      cases h1

theorem Writes.same (h : Writes s) (hm : SameMasters s s') (hck : s'.ck = s.ck) : Writes s' := by
  constructor
  · intro t e ht
    rw [hck] at ht
    rw [hm.num]
    exact h.entry t e ht
  · intro t e ht hc
    rw [hck] at ht
    rw [hm.cur, hm.obj] at hc
    rw [hm.org, hm.obj, hm.ver]
    exact h.store t e ht hc

/-! ### Steps of the reclamation -/

@[simp] theorem setTv_tv {pc : TvPc} : (s.setTv t pc).tv u = if u = t then pc else s.tv u :=
  Function.update_apply ..

@[simp] theorem setCk_ck {pc : CkPc} : (s.setCk t pc).ck u = if u = t then pc else s.ck u :=
  Function.update_apply ..

theorem Settled.setTv (h : Settled B s o n) {pc : TvPc} : Settled B (s.setTv t pc) o n :=
  ⟨h.inserted, h.obj, h.clk, h.detached⟩

/-- A `tvlog_reclaim_x` goes on. -/
theorem Detaches.setTv (h : Detaches B s) {pc : TvPc} (henq : ∀ k, pc = .enq k → Enqueuing B s t k)
    (hdet : ∀ k, pc = .detach k ∨ pc = .detachCas k → Detaching B s t k)
    (hgone : ∀ k, s.tv t = .detach k ∨ s.tv t = .detachCas k →
      (pc = .detach k ∨ pc = .detachCas k) ∨ s.chain.pCopy (s.chain.copies k).obj ≠ some k) :
    Detaches B (s.setTv t pc) := by
  constructor
  · intro u k hu
    rw [setTv_tv] at hu
    have he : Enqueuing B s u k := by
      split at hu
      · rename_i hut
        exact hut ▸ henq k hu
      · exact h.enq u k hu
    exact ⟨he.owner, he.inserted, he.clk, he.fresh, he.newest⟩
  · intro u k hu
    rw [setTv_tv] at hu
    have hd : Detaching B s u k := by
      split at hu
      · rename_i hut
        exact hut ▸ hdet k hu
      · exact h.detach u k hu
    obtain ⟨h1, h2, h3⟩ := hd
    exact ⟨h1, h2.setTv, h3⟩
  · exact h.inserted
  · intro k hd hp
    rw [setTv_tv]
    have hg := h.gone k hd hp
    split
    · rename_i hut
      have hut' : s.owner k = t := hut
      rw [hut'] at hg
      rcases hgone k hg with h1 | h1
      · exact h1
      · exact absurd hp h1
    · exact hg

theorem Writes.setCk (h : Writes s) {pc : CkPc}
    (hentry : ∀ e, pc = .writeback e ∨ pc = .store e → e < s.numEntries)
    (hstore : ∀ e, pc = .store e → s.npCurAct (s.entries e).obj = .entry e →
      s.npOrgAct (s.entries e).obj = some (s.entries e).ver) : Writes (s.setCk t pc) := by
  constructor
  · intro u e hu
    rw [setCk_ck] at hu
    split at hu
    · exact hentry e hu
    · exact h.entry u e hu
  · intro u e hu hc
    rw [setCk_ck] at hu
    split at hu
    · exact hstore e hu hc
    · exact h.store u e hu hc

/-! #### `_ckptlog_enq` -/

/-- `_ckptlog_enq`, with the store of `status`. -/
def State.put (s : State) (t k : ℕ) (x : Slot) : State := (s.append t k).setSlot k x

section

variable {x : Slot}

theorem put_slot : (s.put t k x).slot j = if j = k then x else s.slot j :=
  Function.update_apply ..

theorem put_entries : (s.put t k x).entries e = if e = s.numEntries then
    ⟨t, (s.chain.copies k).obj, k, s.qp0, none, false, false,
      decide ((s.chain.copies k).kind = .free)⟩ else s.entries e :=
  Function.update_apply ..

theorem put_npCurAct : (s.put t k x).npCurAct o =
    if o = (s.chain.copies k).obj then .entry s.numEntries else s.npCurAct o :=
  Function.update_apply ..

theorem put_old (he : e < s.numEntries) : (s.put t k x).entries e = s.entries e :=
  put_entries.trans (if_neg (Nat.ne_of_lt he))

theorem put_curVer (h : Masters B s) : (s.put t k x).curVer o =
    if o = (s.chain.copies k).obj then some k else s.curVer o := by
  unfold State.curVer
  rw [put_npCurAct]
  split
  · show some ((s.put t k x).entries s.numEntries).ver = _
    rw [put_entries, if_pos rfl]
  · cases hc : s.npCurAct o with
    | org => rfl
    | entry e =>
      show some ((s.put t k x).entries e).ver = some (s.entries e).ver
      rw [put_old (h.cur o e hc).1]

theorem put_tombstoned (ho : s.Tombstoned o) : (s.put t k x).Tombstoned o := by
  obtain ⟨e, he, heo, ht⟩ := ho
  refine ⟨e, Nat.lt_succ_of_lt he, ?_⟩
  rw [put_old he]
  exact ⟨heo, ht⟩

theorem put_tombstoned_self (hk : (s.chain.copies k).kind = .free) :
    (s.put t k x).Tombstoned (s.chain.copies k).obj := by
  refine ⟨s.numEntries, Nat.lt_succ_self _, ?_⟩
  rw [put_entries, if_pos rfl]
  exact ⟨rfl, decide_eq_true hk⟩

theorem Settled.put (h : Settled B s o n)
    (hd : (s.slot k).detached = true → x.detached = true) : Settled B (s.put t k x) o n := by
  refine ⟨h.inserted, h.obj, h.clk, ?_⟩
  rw [put_slot]
  split
  · rename_i hnk
    exact hd (hnk ▸ h.detached)
  · exact h.detached

theorem Enqueuing.settled (h : Enqueuing B s t k) (hx : x.detached = true) :
    Settled B (s.put t k x) (s.chain.copies k).obj k := by
  refine ⟨h.inserted, rfl, h.clk, ?_⟩
  rw [put_slot, if_pos rfl]
  exact hx

/-- The version in the current master does not get older. -/
theorem Masters.put_cur (h : Masters B s) (hk : Enqueuing B s t k) (hb : ¬ s.Tombstoned o)
    (hn : s.curVer o = some n) : ∃ m, (s.put t k x).curVer o = some m ∧
      (s.chain.copies n).wrtClk ≤ (s.chain.copies m).wrtClk := by
  rw [put_curVer h]
  split
  · rename_i ho
    rw [ho] at hn hb
    exact ⟨k, rfl, h.cur_le hb hk.newest hn⟩
  · exact ⟨n, hn, Nat.le_refl _⟩

/-- The same, also when a tombstone is enqueued. -/
theorem Masters.put_keeps (h : Masters B s)
    (hk : (s.chain.copies k).kind = .free ∨ Enqueuing B s t k)
    (hb : ¬ (s.put t k x).Tombstoned o) (hn : s.curVer o = some n) :
    ∃ m, (s.put t k x).curVer o = some m ∧
      (s.chain.copies n).wrtClk ≤ (s.chain.copies m).wrtClk := by
  rcases hk with hf | hk
  · -- the object that was freed is another one
    refine ⟨n, ?_, Nat.le_refl _⟩
    rw [put_curVer h, if_neg]
    · exact hn
    · rintro rfl
      exact hb (put_tombstoned_self hf)
  · exact h.put_cur hk (fun ht => hb (put_tombstoned ht)) hn

/-- A version is enqueued, or a tombstone. -/
theorem Masters.put (h : Masters B s) (hd : (s.slot k).detached = true → x.detached = true)
    (hk : (s.chain.copies k).kind = .free ∨ Enqueuing B s t k ∧ x.detached = true) :
    Masters B (s.put t k x) := by
  have hfree : ∀ {o}, ¬ (s.put t k x).Tombstoned o → ¬ s.Tombstoned o :=
    fun hb ht => hb (put_tombstoned ht)
  have henq : ¬ (s.put t k x).Tombstoned (s.chain.copies k).obj →
      Enqueuing B s t k ∧ x.detached = true :=
    fun hb => hk.resolve_left fun hf => hb (put_tombstoned_self hf)
  constructor
  · exact h.le
  · exact fun o n hb hn => (h.org o n (hfree hb) hn).put hd
  · -- the new entry is the version that is being checkpointed
    intro e he hb
    by_cases hen : e = s.numEntries
    · rw [put_entries, if_pos hen] at hb ⊢
      obtain ⟨h1, h2⟩ := henq hb
      exact h1.settled h2
    · have hlt : e < s.numEntries := by
        have : e < s.numEntries + 1 := he
        omega
      rw [put_old hlt] at hb ⊢
      exact (h.entry e hlt (hfree hb)).put hd
  · intro o e hc
    rw [put_npCurAct] at hc
    rw [put_entries]
    split at hc
    · rename_i ho
      cases hc
      rw [if_pos rfl]
      exact ⟨Nat.lt_succ_self _, ho.symm⟩
    · obtain ⟨h1, h2⟩ := h.cur o e hc
      rw [if_neg (Nat.ne_of_lt h1)]
      exact ⟨Nat.lt_succ_of_lt h1, h2⟩
  · intro o hb ho j hj hjo
    obtain ⟨n, hn, hle⟩ := h.newest o (hfree hb) ho j hj hjo
    obtain ⟨m, hm, hle'⟩ := h.put_keeps (hk.imp_right And.left) hb hn
    exact ⟨m, hm, Nat.le_trans hle hle'⟩
  · intro j hj hdj
    rw [put_slot] at hdj
    split at hdj
    · rename_i hjk
      refine h.linked j hj ?_
      cases hdk : (s.slot j).detached with
      | false => rfl
      | true =>
        rw [hd (hjk ▸ hdk)] at hdj
        cases hdj
    · exact h.linked j hj hdj

theorem Writes.put (h : Writes s) : Writes (s.put t k x) := by
  constructor
  · exact fun u e hu => Nat.lt_succ_of_lt (h.entry u e hu)
  · intro u e hu hc
    have hlt := h.entry u e (Or.inr hu)
    rw [put_old hlt] at hc ⊢
    rw [put_npCurAct] at hc
    split at hc
    · cases hc
      exact absurd hlt (Nat.lt_irrefl _)
    · exact h.store u e hu hc

end

theorem Detaches.enq_step (h : Detaches B s) (hs : Masters B s) (ht : s.tv t = .enq k) :
    Detaches B ((s.enq t k).setTv t (.detach k)) := by
  have hk := h.enq t k ht
  have hslot : ∀ j, ((s.enq t k).slot j).detached = (decide (j = k) || (s.slot j).detached) := by
    intro j
    rw [show (s.enq t k).slot j = _ from put_slot]
    split
    · rename_i hjk
      rw [decide_eq_true hjk]
      rfl
    · rename_i hjk
      rw [decide_eq_false hjk]
      rfl
  have hset : ∀ {o n}, Settled B s o n → Settled B (s.enq t k) o n := fun h => h.put fun _ => rfl
  constructor
  · intro u j hu
    rw [setTv_tv] at hu
    split at hu
    · cases hu
    · rename_i hut
      obtain ⟨h1, h2, h3, h4, h5⟩ := h.enq u j hu
      refine ⟨h1, h2, h3, ?_, h5⟩
      show ((s.enq t k).slot j).detached = false
      -- a copy is in one log only
      have hjk : j ≠ k := by
        rintro rfl
        exact hut (h1.symm.trans hk.owner)
      rw [hslot, h4, decide_eq_false hjk]
      rfl
  · intro u j hu
    rw [setTv_tv] at hu
    split at hu
    · rename_i hut
      have hjk : k = j := by
        rcases hu with hu | hu <;> cases hu
        rfl
      subst hjk
      refine ⟨hk.owner.trans hut.symm, Settled.setTv (hk.settled rfl), fun _ => ⟨k, ?_, Nat.le_refl _⟩⟩
      show (s.enq t k).curVer (s.chain.copies k).obj = some k
      exact (put_curVer hs).trans (if_pos rfl)
    · obtain ⟨h1, h2, h3⟩ := h.detach u j hu
      refine ⟨h1, (hset h2).setTv, fun hb => ?_⟩
      have hb' : ¬ s.Tombstoned (s.chain.copies j).obj := fun ht =>
        hb (put_tombstoned (x := { s.slot k with detached := true }) ht)
      obtain ⟨n, hn, hle⟩ := h3 hb'
      obtain ⟨m, hm, hle'⟩ := hs.put_cur (x := { s.slot k with detached := true }) hk hb' hn
      exact ⟨m, hm, Nat.le_trans hle hle'⟩
  · intro j hd
    have hd' : ((s.enq t k).slot j).detached = true := hd
    rw [hslot, Bool.or_eq_true, decide_eq_true_eq] at hd'
    rcases hd' with rfl | hd'
    · exact hk.inserted
    · exact h.inserted j hd'
  · intro j hd hp
    rw [setTv_tv]
    have hd' : ((s.enq t k).slot j).detached = true := hd
    rw [hslot, Bool.or_eq_true, decide_eq_true_eq] at hd'
    rcases hd' with rfl | hd'
    · exact Or.inl (if_pos hk.owner)
    · have hg := h.gone j hd' hp
      split
      · rename_i hut
        have hut' : s.owner j = t := hut
        rw [hut', ht] at hg
        rcases hg with hg | hg <;> cases hg
      · exact hg

/-! #### The compare-and-swap of `try_detach_obj` -/

/-- The state after a detach that succeeds. -/
def State.detach (s : State) (k : ℕ) : State :=
  { s with chain := s.chain.setPCopy (s.chain.copies k).obj none }

theorem detach_pCopy : (s.detach k).chain.pCopy o =
    if o = (s.chain.copies k).obj then none else s.chain.pCopy o :=
  Function.update_apply ..

theorem Masters.detach (h : Masters B s) (hh : History B s.chain d) (hk : Detaching B s t k)
    (hp : s.chain.pCopy (s.chain.copies k).obj = some k) : Masters B (s.detach k) := by
  have hset : ∀ {o n}, Settled B s o n → Settled B (s.detach k) o n :=
    fun hs => ⟨hs.inserted, hs.obj, hs.clk, hs.detached⟩
  constructor
  · exact h.le
  · exact fun o n hb hn => hset (h.org o n hb hn)
  · exact fun e he hb => hset (h.entry e he hb)
  · exact h.cur
  · intro o hb ho j hj hjo
    rw [detach_pCopy] at ho
    split at ho
    · -- all versions are older than the one that is detached
      rename_i hok
      obtain ⟨n, hn, hle⟩ := hk.cur (hok ▸ hb)
      rw [← hok] at hp hn
      refine ⟨n, hn, Nat.le_trans ?_ hle⟩
      by_cases hjk : j = k
      · rw [hjk]
        exact Nat.le_refl _
      · exact Nat.le_of_lt (hh.head o k j hp hj hjo hjk)
    · exact h.newest o hb ho j hj hjo
  · intro j hj hd
    rcases h.linked j hj hd with hl | hl
    · left
      show (s.detach k).chain.pCopy (s.chain.copies j).obj = some j
      rw [detach_pCopy]
      split
      · rename_i hjo
        rw [hjo, hp, Option.some_inj] at hl
        subst hl
        have hd' := hk.settled.detached
        rw [show (s.slot k).detached = false from hd] at hd'
        cases hd'
      · exact hl
    · exact Or.inr hl

theorem Detaches.detach_step (h : Detaches B s) : Detaches B (s.detach k) := by
  constructor
  · intro t j ht
    obtain ⟨h1, h2, h3, h4, h5⟩ := h.enq t j ht
    exact ⟨h1, h2, h3, h4, h5⟩
  · intro t j ht
    obtain ⟨h1, h2, h3⟩ := h.detach t j ht
    exact ⟨h1, ⟨h2.inserted, h2.obj, h2.clk, h2.detached⟩, h3⟩
  · exact h.inserted
  · intro j hd hp
    have hp' : (s.detach k).chain.pCopy (s.chain.copies j).obj = some j := hp
    rw [detach_pCopy] at hp'
    split at hp'
    · cases hp'
    · exact h.gone j hd hp'

theorem Writes.detach (h : Writes s) : Writes (s.detach k) := ⟨h.entry, h.store⟩

/-! #### The writeback of a checkpoint -/

/-- The write to the original master. -/
def State.writeback (s : State) (e : ℕ) : State :=
  { s with npOrgAct := Function.update s.npOrgAct (s.entries e).obj (some (s.entries e).ver) }

theorem writeback_npOrgAct : (s.writeback e).npOrgAct o =
    if o = (s.entries e).obj then some (s.entries e).ver else s.npOrgAct o :=
  Function.update_apply ..

/-- While an entry is current, a write to the original master does not show. -/
theorem writeback_curVer (hcur : s.npCurAct (s.entries e).obj = .entry e) :
    (s.writeback e).curVer o = s.curVer o := by
  show (s.writeback e).ver o (s.npCurAct o) = s.ver o (s.npCurAct o)
  cases hc : s.npCurAct o with
  | org =>
    show (s.writeback e).npOrgAct o = s.npOrgAct o
    rw [writeback_npOrgAct, if_neg]
    rintro rfl
    rw [hcur] at hc
    cases hc
  | entry e => rfl

theorem store_curVer (hcur : s.npCurAct (s.entries e).obj = .entry e)
    (horg : s.npOrgAct (s.entries e).obj = some (s.entries e).ver) :
    (s.setCurAct (s.entries e).obj .org).curVer o = s.curVer o := by
  show (s.setCurAct (s.entries e).obj .org).ver o (Function.update s.npCurAct _ _ o) = _
  rw [Function.update_apply]
  split
  · rename_i ho
    subst ho
    rw [State.curVer, hcur]
    exact horg
  · rfl

theorem Masters.writeback (h : Masters B s) (he : e < s.numEntries)
    (hcur : s.npCurAct (s.entries e).obj = .entry e) : Masters B (s.writeback e) := by
  have hv : SameVersions s (s.writeback e) := .of_chain rfl rfl fun _ => rfl
  constructor
  · exact h.le
  · intro o n hb hn
    rw [writeback_npOrgAct] at hn
    split at hn
    · rename_i ho
      cases hn
      rw [ho]
      exact (h.entry e he (ho ▸ hb)).same hv h.le
    · exact (h.org o n hb hn).same hv h.le
  · exact fun e' he' hb => (h.entry e' he' hb).same hv h.le
  · exact h.cur
  · exact fun o hb ho j hj hjo => h.newest_same hv (fun _ => writeback_curVer hcur) hb ho hj hjo
  · exact h.linked

theorem Writes.writeback (h : Writes s) (hcur : s.npCurAct (s.entries e).obj = .entry e) :
    Writes (s.writeback e) := by
  refine ⟨h.entry, fun t e' ht hc => ?_⟩
  have hc' : s.npCurAct (s.entries e').obj = .entry e' := hc
  show (s.writeback e).npOrgAct (s.entries e').obj = some (s.entries e').ver
  rw [writeback_npOrgAct]
  split
  · rename_i ho
    rw [ho, hcur, Master.entry.injEq] at hc'
    rw [hc']
  · exact h.store t e' ht hc'

theorem Masters.store (h : Masters B s) (hcur : s.npCurAct (s.entries e).obj = .entry e)
    (horg : s.npOrgAct (s.entries e).obj = some (s.entries e).ver) :
    Masters B (s.setCurAct (s.entries e).obj .org) := by
  have hv : SameVersions s (s.setCurAct (s.entries e).obj .org) := .of_chain rfl rfl fun _ => rfl
  constructor
  · exact h.le
  · exact fun o n hb hn => (h.org o n hb hn).same hv h.le
  · exact fun e' he' hb => (h.entry e' he' hb).same hv h.le
  · intro o e' hc
    have hc' : Function.update s.npCurAct (s.entries e).obj .org o = .entry e' := hc
    rw [Function.update_apply] at hc'
    split at hc'
    · cases hc'
    · exact h.cur o e' hc'
  · exact fun o hb ho j hj hjo =>
      h.newest_same hv (fun _ => store_curVer hcur horg) hb ho hj hjo
  · exact h.linked

theorem Writes.store_org (h : Writes s) : Writes (s.setCurAct o .org) := by
  refine ⟨h.entry, fun t e' ht hc => h.store t e' ht ?_⟩
  have hc' : Function.update s.npCurAct o .org (s.entries e').obj = .entry e' := hc
  rw [Function.update_apply] at hc'
  split at hc'
  · cases hc'
  · exact hc'

/-! #### Tombstones -/

theorem Grave.next (h : Grave B s k) (hnum : s.chain.numCopies ≤ s'.chain.numCopies)
    (hkind : (s'.chain.copies k).kind = (s.chain.copies k).kind)
    (hclk : (s'.chain.copies k).wrtClk = (s.chain.copies k).wrtClk) (hq : s.qp0 ≤ s'.qp0) :
    Grave B s' k := by
  have h1 := h.clk
  refine ⟨Nat.lt_of_lt_of_le h.lt hnum, hkind.trans h.kind, ?_⟩
  rw [hclk]
  omega

theorem Grave.same (h : Grave B s k) (hc : s'.chain = s.chain) (hq : s.qp0 ≤ s'.qp0) :
    Grave B s' k :=
  h.next (Nat.le_of_eq (by rw [hc])) (by rw [hc]) (by rw [hc]) hq

/-- A step that leaves the copies alone. -/
theorem Tombs.same (h : Tombs B s) (hc : s'.chain = s.chain) (hq : s.qp0 ≤ s'.qp0)
    (htv : ∀ t k, (s'.tv t).grave = some k → (s.tv t).grave = some k ∨ Grave B s k)
    (hentry : ∀ e < s'.numEntries, (s'.entries e).tombstone = true →
      (e < s.numEntries ∧ (s'.entries e).obj = (s.entries e).obj ∧
        (s.entries e).tombstone = true) ∨
      ∃ k, (s.chain.copies k).obj = (s'.entries e).obj ∧ Grave B s k) : Tombs B s' := by
  constructor
  · rw [hc]
    exact h.locked
  · intro t k hk
    rcases htv t k hk with h1 | h1
    · exact (h.call t k h1).same hc hq
    · exact h1.same hc hq
  · intro e he ht
    rw [hc]
    rcases hentry e he ht with ⟨h1, h2, h3⟩ | ⟨k, h1, h2⟩
    · obtain ⟨k, h4, h5⟩ := h.grave e h1 h3
      exact ⟨k, h4.trans h2.symm, h5.same hc hq⟩
    · exact ⟨k, h1, h2.same hc hq⟩

/-- No call of `tvlog_reclaim_x` goes on, and nothing becomes a tombstone. -/
theorem Tombs.keep (h : Tombs B s) (hc : s'.chain = s.chain) (hq : s.qp0 ≤ s'.qp0)
    (htv : s'.tv = s.tv) (hentry : ∀ e < s'.numEntries, (s'.entries e).tombstone = true →
      e < s.numEntries ∧ (s'.entries e).obj = (s.entries e).obj ∧
        (s.entries e).tombstone = true) : Tombs B s' :=
  h.same hc hq (fun _ _ hk => Or.inl (htv ▸ hk)) fun e he ht => Or.inl (hentry e he ht)

/-- A new detection, while nothing is reclaimed. -/
theorem Masters.qpDone (h : Masters B s) (hc : s'.chain = s.chain) (hsl : s'.slot = s.slot)
    (hent : s'.entries = s.entries) (hnum : s'.numEntries = s.numEntries)
    (hcur : s'.npCurAct = s.npCurAct) (horg : s'.npOrgAct = s.npOrgAct)
    (hle : s.qp0 ≤ s'.qp0) (hmax : s'.qp0 ≤ maxVersion) : Masters B s' := by
  have hset : ∀ {o n}, Settled B s o n → Settled B s' o n := by
    intro o n hs
    have := hs.clk
    refine ⟨?_, ?_, ?_, ?_⟩
    · rw [hc]
      exact hs.inserted
    · rw [hc]
      exact hs.obj
    · rw [hc]
      omega
    · rw [hsl]
      exact hs.detached
  have hver : s'.curVer = s.curVer := by
    funext o
    unfold State.curVer State.ver
    rw [hcur, horg, hent]
  have htomb : ∀ o, s'.Tombstoned o ↔ s.Tombstoned o := by
    intro o
    unfold State.Tombstoned
    rw [hent, hnum]
  constructor
  · exact hmax
  · intro o n hb hn
    rw [horg] at hn
    rw [htomb] at hb
    exact hset (h.org o n hb hn)
  · intro e he hb
    rw [hnum] at he
    rw [hent, htomb] at hb
    rw [hent]
    exact hset (h.entry e he hb)
  · rw [hcur, hnum, hent]
    exact h.cur
  · intro o hb
    rw [htomb] at hb
    rw [hc, hver]
    exact h.newest o hb
  · rw [hc, hsl]
    exact h.linked

end TimeStone.WriteRule
