/-
What a `ts_deref` has found so far, and what a transaction has read.

A `ts_deref` goes from newer versions to older ones.  Where it stands, no version that its
transaction sees is newer (`Covers`): a version that it leaves behind is unseen, and the one it
goes to is the predecessor.  When it stops at a checkpoint clock, the current master is at
least as new as what the chain still holds.  The other steps do not change this (`Frame`).

* `DerefOk` — a `ts_deref` that is under way;
* `ReadOk` — what a `ts_deref` has returned;
* `DerefOk.frame`, `ReadOk.frame` — the steps of the others;
* `Invariant.derefStep` — the steps of `ts_deref`.
-/
import TimeStone.SnapshotReadNext

namespace TimeStone.SnapshotRead

open WriteRule (Master Safe SafeEntry SameTx Settled)
open VersionChain (Inv)

variable {B : ℕ} {s s' : State} {r r' : WriteRule.State} {c : VersionChain.State}
  {t u o k j l n w x : ℕ} {v : Option ℕ}

/-! ### Readers -/

/-- No version of the object that the transaction sees is newer than the version `v`. -/
def Covers (B : ℕ) (r : WriteRule.State) (t o : ℕ) (v : Option ℕ) : Prop :=
  ∀ j, (r.chain.copies j).inserted = true → (r.chain.copies j).obj = o →
    ¬ Unseen B r.chain j (r.chain.threads t).localClk →
      ∃ n, v = some n ∧ (r.chain.copies j).wrtClk ≤ (r.chain.copies n).wrtClk

/-- A `ts_deref` of the object stands at the copy `k`. -/
structure At (B : ℕ) (r : WriteRule.State) (t o k : ℕ) : Prop where
  safe : Safe r t k
  obj : (r.chain.copies k).obj = o
  covers : Covers B r t o (some k)

def DerefOk (B : ℕ) (r : WriteRule.State) (t : ℕ) : DerefPc → Prop
  | .idle => True
  | .loadClks o k => At B r t o k
  | .wrtClk o k l | .pending o k l | .wait o k l => At B r t o k ∧ l ≤ r.lastCkpt
  | .next o k l => At B r t o k ∧ l ≤ r.lastCkpt ∧
      Unseen B r.chain k (r.chain.threads t).localClk
  | .older o k l => At B r t o k ∧ l ≤ r.lastCkpt ∧
      Unseen B r.chain k (r.chain.threads t).localClk ∧
        ∀ j, (r.chain.copies k).pCopy = some j → Safe r t j
  | .curAct o => ¬ r.Tombstoned o → Covers B r t o (r.curVer o)

/-- The version of the object is in the snapshot of the transaction. -/
structure Seen (B : ℕ) (r : WriteRule.State) (t o n : ℕ) : Prop where
  inserted : (r.chain.copies n).inserted = true
  obj : (r.chain.copies n).obj = o
  before : (r.chain.wss (r.chain.copies n).ws).wrtClk + B < (r.chain.threads t).localClk

/-- The place holds the version, and will while the transaction runs. -/
def Kept (B : ℕ) (r : WriteRule.State) (t o : ℕ) (v : Option ℕ) : Place → Prop
  | .copy k => Safe r t k ∧ v = some k
  | .master .org => OrgOk B r t o ∧ v = r.npOrgAct o
  | .master (.entry e) => SafeEntry r t e ∧ v = some (r.entries e).ver

structure ReadOk (B : ℕ) (r : WriteRule.State) (t : ℕ) (x : Read) : Prop where
  covers : Covers B r t x.obj x.ver
  seen : ∀ n, x.ver = some n → Seen B r t x.obj n
  kept : Kept B r t x.obj x.ver x.place

/-! ### The steps of the others -/

section

variable (hf : Frame B r r') (hu : SameTx r r' t)

include hf hu

theorem Covers.frame (h : Covers B r t o v) (hc : Checkpoints B r)
    (hv : ∀ n, v = some n → (r.chain.copies n).inserted = true ∧ (r.chain.copies n).obj = o) :
    Covers B r' t o v := by
  intro j hj hjo hsee
  rw [hu.localClk] at hsee
  have hclk := hc.clk t hu.active
  by_cases hold : (r.chain.copies j).inserted = true
  · rw [(hf.moves.old j hold).2.1] at hjo
    obtain ⟨n, hn, hle⟩ := h j hold hjo fun hun => hsee (hf.moves.unseen j _ hold hclk hun)
    obtain ⟨h1, h2⟩ := hv n hn
    exact ⟨n, hn, hf.moves.order j n hold h1 (hjo.trans h2.symm) hle⟩
  · -- a new version is in no snapshot
    exact absurd ((hf.moves.new j (by simpa using hold) hj).2.1 _ hclk) hsee

theorem At.frame (h : At B r t o k) (hc : Checkpoints B r) : At B r' t o k where
  safe := hf.safe t k hu h.safe
  obj := (hf.moves.old k h.safe.inserted).2.1.trans h.obj
  covers := h.covers.frame hf hu hc fun n hn => by
    obtain rfl := Option.some_inj.mp hn
    exact ⟨h.safe.inserted, h.obj⟩

theorem Unseen.frame (h : Unseen B r.chain k (r.chain.threads t).localClk)
    (hc : Checkpoints B r) (hk : (r.chain.copies k).inserted = true) :
    Unseen B r'.chain k (r'.chain.threads t).localClk := by
  rw [hu.localClk]
  exact hf.moves.unseen k _ hk (hc.clk t hu.active) h

theorem covers_cur (h : Covers B r t o (r.curVer o)) (hc : Checkpoints B r)
    (hi : WriteRule.Invariant B r) (hb : ¬ r'.Tombstoned o) : Covers B r' t o (r'.curVer o) := by
  have hset : ∀ n, r.curVer o = some n →
      (r.chain.copies n).inserted = true ∧ (r.chain.copies n).obj = o := by
    intro n hn
    have := hi.masters.settled_cur (fun ht => hb (hf.tombstoned o ht)) hn
    exact ⟨this.inserted, this.obj⟩
  intro j hj hjo hsee
  obtain ⟨n, hn, hle⟩ := h.frame hf hu hc hset j hj hjo hsee
  obtain ⟨m, hm, hle'⟩ := hf.cur o n hb hn
  exact ⟨m, hm, Nat.le_trans hle hle'⟩

theorem DerefOk.frame {pc : DerefPc} (h : DerefOk B r t pc) (hc : Checkpoints B r)
    (hi : WriteRule.Invariant B r) : DerefOk B r' t pc := by
  have hl := hf.lastCkpt
  cases pc with
  | idle => trivial
  | loadClks o k => exact At.frame hf hu h hc
  | wrtClk o k l => exact ⟨h.1.frame hf hu hc, Nat.le_trans h.2 hl⟩
  | pending o k l => exact ⟨h.1.frame hf hu hc, Nat.le_trans h.2 hl⟩
  | wait o k l => exact ⟨h.1.frame hf hu hc, Nat.le_trans h.2 hl⟩
  | next o k l =>
    obtain ⟨h1, h2, h3⟩ := h
    exact ⟨h1.frame hf hu hc, Nat.le_trans h2 hl, h3.frame hf hu hc h1.safe.inserted⟩
  | older o k l =>
    obtain ⟨h1, h2, h3, h4⟩ := h
    refine ⟨h1.frame hf hu hc, Nat.le_trans h2 hl, h3.frame hf hu hc h1.safe.inserted, ?_⟩
    rw [(hf.moves.old k h1.safe.inserted).2.2.2]
    exact fun j hj => hf.safe t j hu (h4 j hj)
  | curAct o => exact fun hb => covers_cur hf hu (h fun ht => hb (hf.tombstoned o ht)) hc hi hb

theorem Seen.frame (h : Seen B r t o n) (hi : WriteRule.Invariant B r) : Seen B r' t o n := by
  obtain ⟨h1, h2, h3, -⟩ := hf.moves.old n h.inserted
  have hb := h.before
  have hlt := (hi.chain.threads t).localClk
  refine ⟨h1, h2.trans h.obj, ?_⟩
  rw [h3, hu.localClk, hf.moves.once _ (ws_lt hi.chain h.inserted) (by omega)]
  exact hb

theorem ReadOk.frame {x : Read} (h : ReadOk B r t x) (hc : Checkpoints B r)
    (hi : WriteRule.Invariant B r) (hb : ¬ r'.Tombstoned x.obj) : ReadOk B r' t x where
  covers := h.covers.frame hf hu hc fun n hn => ⟨(h.seen n hn).inserted, (h.seen n hn).obj⟩
  seen := fun n hn => (h.seen n hn).frame hf hu hi
  kept := by
    have hk := h.kept
    cases hp : x.place with
    | copy k =>
      rw [hp] at hk
      exact ⟨hf.safe t k hu hk.1, hk.2⟩
    | master m =>
      rw [hp] at hk
      cases m with
      | org =>
        obtain ⟨h1, h2⟩ := hf.org t x.obj hb hu hk.1
        exact ⟨h1, hk.2.trans h2.symm⟩
      | entry e =>
        obtain ⟨h1, h2⟩ := hf.entry t e hu hk.1
        exact ⟨h1, by rw [h2]; exact hk.2⟩

end

/-! ### What a reader does not see -/

/-- A published version that is not before the local clock. -/
theorem unseen_of_clk (hi : Inv B c) (hne : (c.wss (c.copies k).ws).wrtClk ≠ maxVersion)
    (hle : x ≤ (c.wss (c.copies k).ws).wrtClk + B) : Unseen B c k x :=
  ⟨hle, fun _ _ hu hW => absurd (ws_wrtClk hi hu hW).1 hne⟩

/-- A version whose commit clock is not announced, or is announced after the local clock. -/
theorem unseen_of_pending (hi : Inv B c) (ha : Announced c) (hx : x < maxVersion)
    (hp : (c.wss (c.copies k).ws).pendingWrtClk = maxVersion ∨
      x < (c.wss (c.copies k).ws).pendingWrtClk)
    (hgot : ∀ u W, (c.threads u).ws = some (c.copies k).ws → (c.threads u).pc = .gotClock W →
      x ≤ W + B) : Unseen B c k x := by
  constructor
  · rcases ha.ws (c.copies k).ws with h1 | ⟨u, W, h1, h2⟩
    · omega
    · have := (ws_wrtClk (W := W) hi h1 (by rw [h2]; rfl)).1
      omega
  · intro u W hu hW
    have hlt := (ws_wrtClk hi hu hW).2
    cases hpc : (c.threads u).pc with
    | gotClock V =>
      rw [hpc] at hW
      obtain rfl := Option.some_inj.mp hW
      exact hgot u V hu hpc
    | publish V =>
      rw [hpc] at hW
      obtain rfl := Option.some_inj.mp hW
      have := ha.publish u _ V hu hpc
      omega
    | _ =>
      rw [hpc] at hW
      cases hW

/-! ### The states -/

structure Invariant (B : ℕ) (s : State) : Prop where
  rule : WriteRule.Invariant B s.rule
  ckpts : Checkpoints B s.rule
  lastCkpt : ∀ t, s.lastCkpt t ≤ s.rule.lastCkpt
  done : s.rule.phase = .reclaim .ckpt → ∀ k, (s.rule.chain.copies k).inserted = true →
    (s.rule.chain.copies k).wrtClk + B < s.rule.qp0 → s.rule.owner k ∉ s.untold →
      s.requested (s.rule.owner k) = false → (s.rule.slot k).passed ≠ none
  calls : ∀ t, s.deref t ≠ .idle →
    (s.rule.chain.threads t).pc = .inTx ∧ s.rule.aborting t = false
  ended : ∀ t, ¬ s.rule.Active t → s.reads t = []
  derefOk : ∀ t, DerefOk B s.rule t (s.deref t)
  readOk : ∀ t, ∀ x ∈ s.reads t, ¬ s.rule.Tombstoned x.obj → ReadOk B s.rule t x

theorem setDeref_deref {pc : DerefPc} :
    (s.setDeref t pc).deref u = if u = t then pc else s.deref u :=
  Function.update_apply ..

section

variable (h : Invariant B s)

include h

theorem Invariant.active (ht : s.deref t ≠ .idle) : s.rule.Active t := by
  obtain ⟨h1, h2⟩ := h.calls t ht
  exact ⟨by simp [h1], h2⟩

theorem Invariant.copyAt_eq (hk : Safe s.rule t k) : s.copyAt k = s.rule.chain.copies k := by
  rw [State.copyAt, h.rule.look_eq hk]

theorem Invariant.setDeref {pc : DerefPc}
    (hcall : pc ≠ .idle → (s.rule.chain.threads t).pc = .inTx ∧ s.rule.aborting t = false)
    (hpc : DerefOk B s.rule t pc) : Invariant B (s.setDeref t pc) where
  rule := h.rule
  ckpts := h.ckpts
  lastCkpt := h.lastCkpt
  done := h.done
  calls := by
    intro u hu
    rw [setDeref_deref] at hu
    split at hu
    · rename_i hut
      exact hut ▸ hcall hu
    · exact h.calls u hu
  ended := h.ended
  derefOk := by
    intro u
    rw [setDeref_deref]
    split
    · rename_i hut
      exact hut ▸ hpc
    · exact h.derefOk u
  readOk := h.readOk

theorem Invariant.found {x : Read} (hact : s.rule.Active t)
    (hx : ¬ s.rule.Tombstoned x.obj → ReadOk B s.rule t x) : Invariant B (s.found t x) := by
  have h₁ : Invariant B (s.setDeref t .idle) := h.setDeref (by simp) trivial
  have hreads : ∀ u, (s.found t x).reads u = if u = t then x :: s.reads t else s.reads u :=
    fun u => Function.update_apply ..
  refine ⟨h₁.rule, h₁.ckpts, h₁.lastCkpt, h₁.done, h₁.calls, fun u hu => ?_, h₁.derefOk,
    fun u y hy => ?_⟩
  · rw [hreads, if_neg]
    · exact h.ended u hu
    · rintro rfl
      exact hu hact
  · rw [hreads] at hy
    split at hy
    · rename_i hut
      rw [hut]
      rcases List.mem_cons.mp hy with rfl | hy
      · exact hx
      · exact h.readOk t y hy
    · exact h.readOk u y hy

/-! ### `ts_deref` -/

/-- The newest version is at the head of the chain; when the chain is empty, it is in the
current master. -/
theorem Invariant.deref (hs : deref s t o = some s') : Invariant B s' := by
  unfold SnapshotRead.deref at hs
  obtain ⟨⟨⟨hpc, -, hab⟩, -⟩, hs⟩ := Option.ite_none_right_eq_some.mp hs
  split at hs <;> cases hs
  · rename_i hp
    refine h.setDeref (fun _ => ⟨hpc, hab⟩) ?_
    exact fun hb j hj hjo _ => h.rule.masters.newest o hb hp j hj hjo
  · rename_i k hp
    refine h.setDeref (fun _ => ⟨hpc, hab⟩) ⟨h.rule.safe_head hp,
      (h.rule.chain.chains.head o k hp).2.1, fun j hj hjo _ => ⟨k, rfl, ?_⟩⟩
    by_cases hjk : j = k
    · exact Nat.le_of_eq (by rw [hjk])
    · exact Nat.le_of_lt (h.rule.history.head o k j hp hj hjo hjk)

section

variable (ht : s.deref t ≠ .idle)

include ht

/-- The test of the write clock `w`. -/
theorem Invariant.judge (hat : At B s.rule t o k) (hl : l ≤ s.rule.lastCkpt)
    (hyes : ltClock B w (s.localClk t) →
      (s.rule.chain.wss (s.rule.chain.copies k).ws).wrtClk = w)
    (hno : ¬ ltClock B w (s.localClk t) → Unseen B s.rule.chain k (s.localClk t)) :
    Invariant B (judge B s t o k l w) := by
  unfold SnapshotRead.judge
  split
  · rename_i hlt
    rw [h.rule.look_eq hat.safe]
    refine h.found (h.active ht) fun _ => ⟨hat.covers, fun n hn => ?_, hat.safe, rfl⟩
    obtain rfl := Option.some_inj.mp hn
    refine ⟨hat.safe.inserted, hat.obj, ?_⟩
    rw [hyes hlt]
    exact ltClock_iff.mp hlt
  · rename_i hlt
    exact h.setDeref (fun _ => h.calls t ht) ⟨hat, hl, hno hlt⟩

/-- What is left of the chain is not newer than the current master. -/
theorem Invariant.curAct (hat : At B s.rule t o k)
    (hun : Unseen B s.rule.chain k (s.localClk t))
    (hold : ∀ j, (s.rule.chain.copies j).inserted = true →
      (s.rule.chain.copies j).obj = o →
        (s.rule.chain.copies j).wrtClk < (s.rule.chain.copies k).wrtClk → AtLeast s.rule j) :
    Invariant B (s.setDeref t (.curAct o)) := by
  refine h.setDeref (fun _ => h.calls t ht) fun hb j hj hjo hsee => ?_
  obtain ⟨n, hn, hle⟩ := hat.covers j hj hjo hsee
  obtain rfl := Option.some_inj.mp hn
  have hne : j ≠ k := by
    rintro rfl
    exact hsee hun
  have hclk := h.rule.history.clk_ne hat.safe.inserted hj (hjo.trans hat.obj.symm) hne
  rw [← hjo] at hb ⊢
  exact hold j hj hjo (by omega) hb

omit ht in
/-- A version that is older than `k` is not newer than its predecessor. -/
theorem Invariant.le_predecessor (hk : (s.rule.chain.copies k).inserted = true)
    (hl : (s.rule.chain.copies k).pCopy = some j) (hn : (s.rule.chain.copies n).inserted = true)
    (hno : (s.rule.chain.copies n).obj = (s.rule.chain.copies k).obj)
    (hlt : (s.rule.chain.copies n).wrtClk < (s.rule.chain.copies k).wrtClk) :
    (s.rule.chain.copies n).wrtClk ≤ (s.rule.chain.copies j).wrtClk := by
  by_contra hgt
  have hj := h.rule.chain.chains.link k j hk hl
  have := h.rule.history.successor h.rule.chain hk hl hn (hno.trans hj.obj.symm) (by omega)
  omega

/-- The next older version was not passed before the transaction began, when its clock is not
below the checkpoint. -/
theorem Invariant.safe_older (hat : At B s.rule t o k)
    (hun : Unseen B s.rule.chain k (s.localClk t))
    (hp : (s.rule.chain.copies k).pCopy = some j)
    (hge : ¬ ltClock B (s.rule.chain.copies k).wrtClkNext s.rule.lastCkpt) :
    Safe s.rule t j := by
  have hlink := h.rule.chain.chains.link k j hat.safe.inserted hp
  have hact := h.active ht
  rw [hlink.next, ltClock_iff] at hge
  have hpassed : ∀ r, (s.rule.slot j).passed = some r → r = s.rule.round ∧
      WriteRule.Reclaiming s.rule := by
    intro r hr
    rcases h.ckpts.passed j r hlink.inserted hr with h1 | ⟨n, h1, h2, h3, h4⟩ | ⟨h1, h2, -⟩
    · exact absurd h1 hge
    · -- the newer version is in the snapshot, but there is none between `j` and `k`
      have hle := (h.rule.qp.active t hact).2.2
      have hne : n ≠ k := by
        rintro rfl
        have hmax := h.rule.masters.le
        have hws := h.rule.chain.chains.stamp n (h.rule.lt h1) (by
          rw [VersionChain.Copy.Committed]
          omega)
        have hx := hun.clk
        rw [hws, State.localClk] at hx
        omega
      have hno := h2.trans hlink.obj
      have hclk := h.rule.history.clk_ne hat.safe.inserted h1 hno hne
      have hsee : ¬ Unseen B s.rule.chain n (s.rule.chain.threads t).localClk := by
        intro hu
        have hmax := h.rule.masters.le
        have hws := h.rule.chain.chains.stamp n (h.rule.lt h1) (by
          rw [VersionChain.Copy.Committed]
          omega)
        have hx := hu.clk
        rw [hws] at hx
        omega
      obtain ⟨m, hm, hle'⟩ := hat.covers n h1 (hno.trans hat.obj) hsee
      obtain rfl := Option.some_inj.mp hm
      have := h.le_predecessor hat.safe.inserted hp h1 hno (by omega)
      omega
    · exact ⟨h2, _, h1⟩
  refine ⟨hlink.inserted, ?_, fun r hr => ?_⟩
  · -- a copy is given back only in a later round than the one that passed it
    by_contra hf
    obtain ⟨r, hr, hlt⟩ := h.rule.slots.freed j (by simpa using hf) hlink.inserted
    have := (hpassed r hr).1
    have := h.rule.rounds.tvLe (s.rule.owner j)
    omega
  · obtain ⟨h1, h2⟩ := hpassed r hr
    exact Nat.le_of_eq ((h.rule.began_eq h2 hact).trans h1.symm)

omit ht in
/-- The copy behind `k`. -/
theorem Invariant.at_older (hat : At B s.rule t o k)
    (hun : Unseen B s.rule.chain k (s.localClk t))
    (hp : (s.rule.chain.copies k).pCopy = some j) (hsafe : Safe s.rule t j) :
    At B s.rule t o j where
  safe := hsafe
  obj := (h.rule.chain.chains.link k j hat.safe.inserted hp).obj.trans hat.obj
  covers := by
    intro i hi hio hsee
    obtain ⟨n, hn, hle⟩ := hat.covers i hi hio hsee
    obtain rfl := Option.some_inj.mp hn
    have hne : i ≠ k := by
      rintro rfl
      exact hsee hun
    have hko := hio.trans hat.obj.symm
    have hclk := h.rule.history.clk_ne hat.safe.inserted hi hko hne
    exact ⟨j, rfl, h.le_predecessor hat.safe.inserted hp hi hko (by omega)⟩

omit ht in
/-- What lies in the current master is in the snapshot of every transaction. -/
theorem Invariant.readOk_cur (hact : s.rule.Active t) (hb : ¬ s.rule.Tombstoned o)
    (hcov : Covers B s.rule t o (s.rule.curVer o)) (g : Option ℕ) :
    ReadOk B s.rule t ⟨o, .master (s.rule.npCurAct o),
      s.rule.masterVer o g (s.rule.npCurAct o)⟩ := by
  have hver : s.rule.masterVer o g (s.rule.npCurAct o) = s.rule.curVer o := by
    unfold WriteRule.State.curVer
    cases hc : s.rule.npCurAct o with
    | org => rfl
    | entry e =>
      have hkept := (h.rule.safe_cur (t := t) hb hc).kept
      have hset := h.rule.masters.settled_cur hb (n := (s.rule.entries e).ver) (by
        rw [WriteRule.State.curVer, hc]
        rfl)
      have hkind := (h.rule.chain.chains.alloc _ hset.inserted).2
      simp [WriteRule.State.masterVer, WriteRule.State.ver, hkept, hkind]
  rw [hver]
  refine ⟨hcov, fun n hn => ?_, ?_⟩
  · have hset := h.rule.masters.settled_cur hb hn
    have hclk := hset.clk
    have hmax := h.rule.masters.le
    have hle := (h.rule.qp.active t hact).2.2
    have hws := h.rule.chain.chains.stamp n (h.rule.lt hset.inserted) (by
      rw [VersionChain.Copy.Committed]
      omega)
    refine ⟨hset.inserted, hset.obj, ?_⟩
    rw [hws]
    omega
  · cases hc : s.rule.npCurAct o with
    | org => exact ⟨Or.inl hc, by simp [WriteRule.State.curVer, hc, WriteRule.State.ver]⟩
    | entry e =>
      exact ⟨h.rule.safe_cur hb hc, by simp [WriteRule.State.curVer, hc, WriteRule.State.ver]⟩

end

theorem Invariant.derefStep {g : Option ℕ} (hok : UpToDate B s t (s.deref t))
    (hs : derefStep B s t g = some s') : Invariant B s' := by
  have hd := h.derefOk t
  have hi := h.rule.chain
  have hx := (hi.threads t).localClk
  unfold SnapshotRead.derefStep at hs
  split at hs
  · cases hs
  · rename_i o k hpc
    cases hs
    rw [hpc] at hd
    -- the load of `__last_ckpt`
    exact h.setDeref (fun _ => h.calls t (by simp [hpc])) ⟨hd, h.lastCkpt t⟩
  · rename_i o k l hpc
    rw [hpc] at hd
    have ht : s.deref t ≠ .idle := by simp [hpc]
    rw [h.copyAt_eq hd.1.safe] at hs
    split at hs <;> cases hs
    · rename_i hne
      -- a stamp is the clock of the write set
      have hws := hi.chains.stamp k (h.rule.lt hd.1.safe.inserted) hne
      refine h.judge ht hd.1 hd.2 (fun _ => hws) fun hlt => unseen_of_clk hi (by rwa [hws]) ?_
      rw [ltClock_iff] at hlt
      omega
    · exact h.setDeref (fun _ => h.calls t ht) hd
  · rename_i o k l hpc
    rw [hpc] at hd hok
    have ht : s.deref t ≠ .idle := by simp [hpc]
    have hws : s.wsAt k = s.rule.chain.wss (s.rule.chain.copies k).ws := by
      rw [State.wsAt, h.copyAt_eq hd.1.safe]
    rw [hws] at hs
    split at hs <;> cases hs
    · rename_i hp
      refine h.judge ht hd.1 hd.2 (fun hlt => ?_) fun _ =>
        unseen_of_pending hi h.ckpts.announced hx hp fun u W hu hW => ?_
      · -- `MAX_VERSION` is before no local clock
        rw [ltClock_iff, State.localClk] at hlt
        omega
      · -- a clock that is not announced yet is not in the snapshot
        by_contra hlt
        refine hok ?_
        rw [h.copyAt_eq hd.1.safe, hws, ((hi.threads u).ws _ hu).2]
        unfold Unannounced
        rw [hW]
        exact ⟨hu, ltClock_iff.mpr (Nat.lt_of_not_le hlt)⟩
    · exact h.setDeref (fun _ => h.calls t ht) hd
  · rename_i o k l hpc
    rw [hpc] at hd
    have ht : s.deref t ≠ .idle := by simp [hpc]
    have hws : s.wsAt k = s.rule.chain.wss (s.rule.chain.copies k).ws := by
      rw [State.wsAt, h.copyAt_eq hd.1.safe]
    rw [hws] at hs
    split at hs <;> cases hs
    rename_i hne
    -- the commit has published its clock by now
    refine h.judge ht hd.1 hd.2 (fun _ => rfl) fun hlt => unseen_of_clk hi hne ?_
    rw [ltClock_iff] at hlt
    omega
  · rename_i o k l hpc
    rw [hpc] at hd hok
    have ht : s.deref t ≠ .idle := by simp [hpc]
    obtain ⟨hat, hl, hun⟩ := hd
    have hck := h.copyAt_eq hat.safe
    have hok' : ltClock B (s.copyAt k).wrtClkNext s.rule.lastCkpt →
        ltClock B (s.copyAt k).wrtClkNext l := hok
    rw [hck] at hs hok'
    split at hs <;> cases hs
    · -- the next older version is below the checkpoint
      rename_i hlt
      refine h.curAct ht hat hun fun j hj hjo hjk => ?_
      cases hp : (s.rule.chain.copies k).pCopy with
      | none => exact h.ckpts.bottom k j hat.safe.inserted hp hj (hjo.trans hat.obj.symm) hjk
      | some i =>
        have hlink := hi.chains.link k i hat.safe.inserted hp
        rw [hlink.next, ltClock_iff] at hlt
        intro hb
        rw [← hlink.obj.trans (hat.obj.trans hjo.symm)] at hb ⊢
        obtain ⟨n, hn, hle⟩ := h.ckpts.below i hlink.inserted (by omega) hb
        have hle' := h.le_predecessor hat.safe.inserted hp hj (hjo.trans hat.obj.symm) hjk
        exact ⟨n, hn, Nat.le_trans hle' hle⟩
    · -- the walk goes on: the older version is not below what the thread knows of the checkpoint
      rename_i hlt
      exact h.setDeref (fun _ => h.calls t ht) ⟨hat, hl, hun, fun j hp =>
        h.safe_older ht hat hun hp fun hc => hlt (hok' hc)⟩
  · rename_i o k l hpc
    rw [hpc] at hd
    have ht : s.deref t ≠ .idle := by simp [hpc]
    obtain ⟨hat, hl, hun, hsafe⟩ := hd
    rw [h.copyAt_eq hat.safe] at hs
    split at hs <;> cases hs
    · rename_i hp
      -- the end of the chain
      exact h.curAct ht hat hun fun j hj hjo hjk =>
        h.ckpts.bottom k j hat.safe.inserted hp hj (hjo.trans hat.obj.symm) hjk
    · rename_i j hp
      exact h.setDeref (fun _ => h.calls t ht)
        ⟨h.at_older hat hun hp (hsafe j hp), hl⟩
  · rename_i o hpc
    cases hs
    rw [hpc] at hd
    have hact := h.active (t := t) (by simp [hpc])
    -- what a freed object yields is not promised
    exact h.found hact fun hb => h.readOk_cur hact hb (hd hb) g

end

end TimeStone.SnapshotRead
