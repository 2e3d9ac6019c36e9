/-
A published checkpoint is complete.

In a checkpoint round every thread has to checkpoint its write sets below the clock of
the round before that clock is published: the live threads because they got a request
and the barrier waits for it, the zombies because they are reaped.  A thread in
`ts_thread_finish` is in neither list for a while, and it does not serve a request that
arrives after it looked (`ckpt_misses_finishing_thread`).  Where such a thread has nothing
left to checkpoint, every version below the published clock is covered
(`published_ckpt_complete`).

* `LeavesSettled` — the condition on threads that leave the live list;
* `Cover` — what the published checkpoint covers;
* `RoundOk` — how far the round has come.
-/
import TimeStone.System.Contents

namespace TimeStone.System

variable {α β : Type*} {org : ℕ → α} {B t W k : ℕ} {s s' : State α β} {c : List ℕ}

/-- The thread has no write set below the quiescence clock left to checkpoint. -/
def State.Settled (s : State α β) (B t : ℕ) : Prop :=
  ∀ w ∈ s.tvNew t, gteClock B w.wrtClk s.qpClks.qp0

instance (s : State α β) (B t : ℕ) : Decidable (s.Settled B t) :=
  inferInstanceAs (Decidable (∀ w ∈ s.tvNew t, _))

/-- The QP thread has looked at the zombies in a checkpoint round. -/
def State.Reaping (s : State α β) : Prop :=
  match s.phase with
  | .reap r _ => r.tvlog = .ckpt
  | .help r => r.tvlog = .ckpt
  | _ => False

/-- The QP thread is about to look at the zombies in a checkpoint round. -/
def State.BeforeReaping (s : State α β) : Prop :=
  match s.phase with
  | .reapStart r => r.tvlog = .ckpt
  | _ => False

instance (s : State α β) : Decidable s.Reaping := by
  unfold State.Reaping
  induction s.phase using Phase.casesOn <;> infer_instance

instance (s : State α β) : Decidable s.BeforeReaping := by
  unfold State.BeforeReaping
  induction s.phase using Phase.casesOn <;> infer_instance

/-- A thread that the QP thread does not find among the zombies has nothing left to
checkpoint. -/
def LeavesSettled (B : ℕ) (s : State α β) : Op α β → Prop
  | .reapLock => s.BeforeReaping → ∀ t ∈ s.tids, s.life t = .limbo → s.Settled B t
  | .deregister t => s.Reaping → s.Settled B t
  | _ => True

instance (B : ℕ) (s : State α β) (op : Op α β) : Decidable (LeavesSettled B s op) := by
  unfold LeavesSettled
  induction op using Op.casesOn <;> infer_instance

/-- What the quiescence clock and the published checkpoint cover. -/
structure Cover (B : ℕ) (s : State α β) : Prop where
  passed : ∀ o, ∀ k ∈ s.hist o, (∃ t, ∃ w ∈ s.tvNew t, k ∈ w.copies) ∨
    s.status k = .detached ∨ ltClock B (s.wrtClkPrev k) s.qpClks.qp0
  covered : ∀ o, ∀ k ∈ s.hist o, s.status k ≠ .detached →
    ltClock B (s.copies k).wrtClk s.qpClks.lastCkpt →
    ltClock B (s.wrtClkPrev k) s.qpClks.lastCkpt

/-- The write sets of a thread are in the order of their clocks. -/
structure Sets (B : ℕ) (s : State α β) : Prop where
  sorted : ∀ t, (s.tvOld t ++ s.tvNew t).Pairwise fun w w' => w.wrtClk ≤ w'.wrtClk
  tx : ∀ t, s.InTx t → ∀ w ∈ s.tvOld t ++ s.tvNew t, w.wrtClk ≤ s.localClk t + B
  empty : ∀ t, s.life t = .fresh ∨ s.life t = .gone → s.tvOld t ++ s.tvNew t = []

/-- The thread has checkpointed its write sets, or it is asked to. -/
def State.Due (s : State α β) (B t : ℕ) : Prop :=
  s.Settled B t ∨ s.InLive t ∧ (s.req t).tvlog = .ckpt

/-- How far a checkpoint round has come. -/
def RoundOk (B : ℕ) (s : State α β) : Prop :=
  match s.phase with
  | .trigger r done => r.tvlog = .ckpt → ∀ t ∈ done, s.Due B t
  | .reapStart r => r.tvlog = .ckpt → ∀ t, s.InLive t → s.Due B t
  | .reap r done => r.tvlog = .ckpt → ∀ t, s.Due B t ∨ s.life t = .zombie ∧ t ∉ done
  | .help r => r.tvlog = .ckpt → ∀ t, s.Due B t
  | .barrier r => r.tvlog = .ckpt → ∀ t, s.Settled B t
  | _ => True

/-! ### The published checkpoint -/

theorem Cover.mono (h : Cover B s) (hhist : s'.hist = s.hist)
    (hwrt : ∀ o, ∀ k ∈ s.hist o, (s'.copies k).wrtClk = (s.copies k).wrtClk)
    (hprev : ∀ o, ∀ k ∈ s.hist o, s'.wrtClkPrev k = s.wrtClkPrev k)
    (hst : ∀ o, ∀ k ∈ s.hist o, s.status k = .detached → s'.status k = .detached)
    (hnew : ∀ o, ∀ k ∈ s.hist o, (∃ t, ∃ w ∈ s.tvNew t, k ∈ w.copies) →
      (∃ t, ∃ w ∈ s'.tvNew t, k ∈ w.copies) ∨ s'.status k = .detached ∨
        ltClock B (s.wrtClkPrev k) s'.qpClks.qp0)
    (hq : s.qpClks.qp0 ≤ s'.qpClks.qp0) (hl : s'.qpClks.lastCkpt = s.qpClks.lastCkpt) :
    Cover B s' := by
  constructor
  · intro o k hk
    rw [hhist] at hk
    rw [hprev o k hk]
    rcases h.passed o k hk with hp | hp | hp
    · exact hnew o k hk hp
    · exact Or.inr (Or.inl (hst o k hk hp))
    · refine Or.inr (Or.inr ?_)
      rw [ltClock_iff] at *
      omega
  · intro o k hk hd hlt
    rw [hhist] at hk
    rw [hwrt o k hk, hl] at hlt
    rw [hprev o k hk, hl]
    exact h.covered o k hk (fun hd' => hd (hst o k hk hd')) hlt

/-- Steps that do not touch the versions and the logs. -/
theorem Cover.congr (h : Cover B s) (hhist : s'.hist = s.hist) (hcopies : s'.copies = s.copies)
    (hprev : s'.wrtClkPrev = s.wrtClkPrev) (hst : s'.status = s.status)
    (hnew : s'.tvNew = s.tvNew) (hq : s'.qpClks.qp0 = s.qpClks.qp0)
    (hl : s'.qpClks.lastCkpt = s.qpClks.lastCkpt) : Cover B s' := by
  refine h.mono hhist (fun _ _ _ => by rw [hcopies]) (fun _ _ _ => by rw [hprev])
    (fun _ _ _ hd => by rw [hst]; exact hd) (fun _ _ _ hw => Or.inl ?_) (le_of_eq hq.symm) hl
  rw [hnew]
  exact hw

/-- A version below the published checkpoint that is the newest such one is detached. -/
theorem Cover.detached (h : Cover B s) (hc : Core B s t W c) {o : ℕ} (hk : k ∈ s.hist o)
    (hlt : ltClock B (s.copies k).wrtClk s.qpClks.lastCkpt)
    (hnew : ∀ j ∈ s.hist o, ltClock B (s.copies j).wrtClk s.qpClks.lastCkpt →
      (s.copies j).wrtClk ≤ (s.copies k).wrtClk) : s.status k = .detached := by
  by_contra hd
  have hprev := h.covered o k hk hd hlt
  rcases hc.chains.prev_cases hk hd with ⟨hmax, -⟩ | ⟨k₂, hk₂, he, hlt₂, -⟩
  · -- no checkpoint clock is beyond `MAX_VERSION`
    have h1 := hc.clocks.max
    have h2 := hc.clocks.ckpt
    have h3 := hc.clocks.qp0
    rw [hmax, ltClock_iff] at hprev
    omega
  · rw [he] at hprev
    have := hnew k₂ hk₂ hprev
    omega

/-- Some version below the clock is the newest one. -/
theorem exists_newest {o C : ℕ} (hk : k ∈ s.hist o) (hlt : ltClock B (s.copies k).wrtClk C) :
    ∃ j ∈ s.hist o, ltClock B (s.copies j).wrtClk C ∧
      ∀ i ∈ s.hist o, ltClock B (s.copies i).wrtClk C →
        (s.copies i).wrtClk ≤ (s.copies j).wrtClk := by
  -- going up ends, because the clocks are below `C`
  induction hn : C - (s.copies k).wrtClk using Nat.strong_induction_on generalizing k with
  | _ n ih =>
    by_cases hmax : ∀ i ∈ s.hist o, ltClock B (s.copies i).wrtClk C →
        (s.copies i).wrtClk ≤ (s.copies k).wrtClk
    · exact ⟨k, hk, hlt, hmax⟩
    · push Not at hmax
      obtain ⟨i, hi, hilt, hgt⟩ := hmax
      refine ih _ ?_ hi hilt rfl
      rw [ltClock_iff] at hilt hlt
      omega

/-- A version below the published checkpoint is not newer than the current master. -/
theorem Cover.le_curWrt (h : Cover B s) (hc : Core B s t W c) {o : ℕ} (hk : k ∈ s.hist o)
    (hlt : ltClock B (s.copies k).wrtClk s.qpClks.lastCkpt) :
    (s.copies k).wrtClk ≤ s.curWrt o := by
  obtain ⟨j, hj, hjlt, hnew⟩ := exists_newest hk hlt
  have hd := h.detached hc hj hjlt hnew
  exact le_trans (hnew k hk hlt) (hc.versions.detached o j hj hd).2

/-! ### Reclamation -/

/-- The copies below the clock that the second loop passes are detached or superseded. -/
theorem Cover.pass (h : Cover B s) (hc : Core B s t W []) {t' o : ℕ} {w : WrtSet}
    (hs : s.Synced t') (hw : w ∈ s.tvNew t') (hk : k ∈ w.copies) (hko : k ∈ s.hist o)
    (hlt : ltClock B w.wrtClk (s.clks t').qp0) (hn : ¬ s.NeedsCkpt B t' k) :
    s.status k = .detached ∨ ltClock B (s.wrtClkPrev k) s.qpClks.qp0 := by
  by_cases hd : s.status k = .detached
  · exact Or.inl hd
  right
  obtain ⟨-, hwrt, -, -⟩ := hc.member (List.mem_append_right _ hw) hk
  have hkind := (hc.chains.mem o k hko).2.2.1
  rw [← hwrt] at hlt
  have hb : ¬ s.IsAtBorderline B k (s.clks t').qp0 (s.clks t').lastCkpt := by
    intro hb
    exact hn ⟨by rw [hkind]; simp, hd, hb⟩
  rw [hs.1, hs.2.2] at hb
  rw [hs.1] at hlt
  unfold State.IsAtBorderline at hb
  split at hb
  · exact absurd hlt hb
  · by_cases hp : ltClock B (s.wrtClkPrev k) s.qpClks.qp0
    · exact hp
    -- not newer than the last checkpoint, which covered it
    have hold : ltClock B (s.copies k).wrtClk s.qpClks.lastCkpt := by
      by_contra hge
      exact hb ⟨hp, hlt, hge⟩
    have hcov := h.covered o k hko hd hold
    have hle := hc.clocks.ckpt
    rw [ltClock_iff] at *
    omega

theorem cover_markTombstone (h : Cover B s) (hc : Core B s t W c) {t' wrt : ℕ}
    (hkind : (s.copies k).kind = .free) : Cover B (s.markTombstone t' wrt k) := by
  have hstatus : ∀ o, ∀ j ∈ s.hist o, s.status j = .detached →
      Function.update s.status k .tombstoneMarked j = .detached :=
    fun o j hj hd => (hc.status_of_free hkind _ o j hj).trans hd
  unfold State.markTombstone
  dsimp only
  split
  · exact h
  split
  · exact h.mono rfl (fun _ _ _ => rfl) (fun _ _ _ => rfl) hstatus (fun _ _ _ => Or.inl)
      (le_refl _) rfl
  · exact h.mono rfl (fun _ _ _ => rfl) (fun _ _ _ => rfl) hstatus (fun _ _ _ => Or.inl)
      (le_refl _) rfl

theorem cover_checkpoint (h : Cover B s) {t' wrt : ℕ} : Cover B (s.checkpoint t' wrt k) := by
  refine h.mono rfl (fun _ _ _ => rfl) (fun _ _ _ => rfl) (fun o j _ hd => ?_)
    (fun _ _ _ => Or.inl) (le_refl _) rfl
  show Function.update s.status k .detached j = .detached
  by_cases he : j = k
  · rw [he, Function.update_self]
  · rw [Function.update_of_ne he]
    exact hd

theorem cover_rewind (h : Cover B s) (t' : ℕ) : Cover B (s.rewind t') := by
  refine h.mono rfl (fun _ _ _ => rfl) (fun _ _ _ => rfl) (fun _ _ _ => id)
    (fun o k _ hp => Or.inl ?_) (le_refl _) rfl
  obtain ⟨t₁, w₁, hw₁, hk₁⟩ := hp
  refine ⟨t₁, w₁, ?_, hk₁⟩
  show w₁ ∈ Function.update s.tvNew t' _ t₁
  by_cases he : t₁ = t'
  · subst he
    rw [Function.update_self]
    exact List.mem_append_right _ hw₁
  · rw [Function.update_of_ne he]
    exact hw₁

theorem cover_passSet (h : Cover B s) (hc : Core B s t W []) {t' : ℕ} {w : WrtSet}
    {rest : List WrtSet} (hs : s.Synced t') (hw : s.tvNew t' = w :: rest)
    (hlt : ltClock B w.wrtClk (s.clks t').qp0)
    (hn : ∀ k ∈ w.copies, ¬ s.NeedsCkpt B t' k) : Cover B (s.passSet t' w rest) := by
  refine h.mono rfl (fun _ _ _ => rfl) (fun _ _ _ => rfl) (fun _ _ _ => id)
    (fun o k hk hp => ?_) (le_refl _) rfl
  obtain ⟨t₁, w₁, hw₁, hk₁⟩ := hp
  by_cases he : t₁ = t'
  · subst he
    rw [hw] at hw₁
    rcases List.mem_cons.mp hw₁ with rfl | hw₁
    · exact Or.inr (h.pass hc hs (by rw [hw]; simp) hk₁ hk hlt (hn k hk₁))
    · refine Or.inl ⟨t₁, w₁, ?_, hk₁⟩
      show w₁ ∈ Function.update s.tvNew t₁ rest t₁
      rw [Function.update_self]
      exact hw₁
  · refine Or.inl ⟨t₁, w₁, ?_, hk₁⟩
    show w₁ ∈ Function.update s.tvNew t' rest t₁
    rw [Function.update_of_ne he]
    exact hw₁

theorem cover_tvlogReclaim (h : Cover B s) (hc : Core B s t W []) {t' : ℕ} (hs : s.Synced t') :
    Cover B (s.tvlogReclaim B t') := by
  refine hc.tvlogReclaim_rule hs ?_ ?_ ?_ ?_ ?_ ?_ h
  · exact fun s₁ w k h₁ hc₁ _ _ hkind => cover_markTombstone h₁ hc₁ hkind
  · exact fun s₁ w rest h₁ _ => { h₁ with }
  · exact fun s₁ h₁ => cover_rewind h₁ t'
  · exact fun s₁ w k h₁ _ _ _ _ _ _ => cover_checkpoint h₁
  · exact fun s₁ w rest h₁ hc₁ hs₁ hw hlt hn => cover_passSet h₁ hc₁ hs₁ hw hlt hn
  · exact fun s₁ h₁ => { h₁ with }

theorem cover_ckptlogReclaim (h : Cover B s) (t' wb : ℕ) :
    Cover B (s.ckptlogReclaim B t' wb) := by
  refine ckptlogReclaim_rule (P := Cover B) (fun budget => ?_) h
  refine ckptlogReclaimX_rule (P := Cover B) ?_ ?_ ?_ ?_ ?_ h
  · exact fun s₁ e rest h₁ _ => { h₁ with }
  · intro s₁ h₁ _
    unfold State.noteMinCkpt
    split
    · exact h₁
    · exact { h₁ with }
  · exact fun s₁ e rest h₁ _ _ _ _ => { h₁ with }
  · exact fun s₁ e rest h₁ _ _ _ => { h₁ with }
  · exact fun s₁ h₁ => { h₁ with }

theorem cover_reapThread (h : Cover B s) (hc : Core B s t W []) (t' : ℕ) :
    Cover B (s.reapThread B t') := by
  have hlogs : Cover B (s.reapLogs B t') := by
    refine hc.reapLogs_rule { h with } (fun _ _ h₁ => { h₁ with }) ?_ ?_
    · exact fun s₁ h₁ hc₁ hs₁ => cover_tvlogReclaim h₁ hc₁ hs₁
    · exact fun s₁ h₁ _ => cover_ckptlogReclaim h₁ t' 0
  exact reapThread_rule (P := Cover B) hlogs (fun _ => { hlogs with }) fun _ => { hlogs with }

/-! ### Transactions -/

theorem cover_lock (h : Cover B s) (hc : Core B s t W c) {t' o : ℕ} {kind : Kind} :
    Cover B (s.lock t' o kind) := by
  have hlt : ∀ {o k}, k ∈ s.hist o → k ≠ s.numCopies := by
    rintro o k hk rfl
    exact absurd (hc.chains.mem o _ hk).1 (lt_irrefl _)
  refine h.mono rfl (fun o k hk => ?_) (fun o k hk => ?_) (fun o k hk hd => ?_)
    (fun _ _ _ => Or.inl) (le_refl _) rfl
  · show (Function.update s.copies s.numCopies _ k).wrtClk = _
    rw [Function.update_of_ne (hlt hk)]
  · exact Function.update_of_ne (hlt hk) _ _
  · exact (Function.update_of_ne (hlt hk) _ _).trans hd

theorem cover_write (h : Cover B s) {a : α} : Cover B (s.write k a) := by
  refine h.mono rfl (fun o j hj => ?_) (fun _ _ _ => rfl) (fun _ _ _ => id)
    (fun _ _ _ => Or.inl) (le_refl _) rfl
  show (Function.update s.copies k _ j).wrtClk = _
  by_cases he : j = k
  · rw [he, Function.update_self]
  · rw [Function.update_of_ne he]

theorem cover_commitSet (h : Cover B s) (t W : ℕ) (info : β) :
    Cover B (s.commitSet t W info) := by
  refine h.mono rfl (fun _ _ _ => rfl) (fun _ _ _ => rfl) (fun _ _ _ => id)
    (fun o k _ hp => Or.inl ?_) (le_refl _) rfl
  obtain ⟨t₁, w₁, hw₁, hk₁⟩ := hp
  refine ⟨t₁, w₁, ?_, hk₁⟩
  show w₁ ∈ Function.update s.tvNew t _ t₁
  by_cases he : t₁ = t
  · subst he
    rw [Function.update_self]
    exact List.mem_append_left _ hw₁
  · rw [Function.update_of_ne he]
    exact hw₁

/-- A new version is above the quiescence clock, and the version that it supersedes waits
for its checkpoint. -/
theorem cover_commitNew (h : Cover B s) {ks : List ℕ} (hc : Core B s t W (k :: ks))
    (hn : Next B s t W k ks) (hlog : ∃ w ∈ s.tvNew t, k ∈ w.copies)
    (hW : s.qpClks.qp0 < W) : Cover B (s.commitNew W k) := by
  obtain ⟨-, -, hst, -, -⟩ := hn.self
  generalize ho : (s.copies k).obj = o at *
  have hmax := hc.clocks.max
  have hq := hc.clocks.qp0
  have hckpt := hc.clocks.ckpt
  have hhist : ∀ o', ∀ j ∈ (s.commitNew W k).hist o', j = k ∨ j ∈ s.hist o' := by
    intro o' j hj
    simp only [State.commitNew, ho] at hj
    by_cases he : o' = o
    · subst he
      rw [Function.update_self] at hj
      exact List.mem_cons.mp hj
    · rw [Function.update_of_ne he] at hj
      exact Or.inr hj
  have hwrt : ∀ o', ∀ j ∈ s.hist o',
      ((s.commitNew W k).copies j).wrtClk = (s.copies j).wrtClk := by
    intro o' j hj
    show (Function.update s.copies k _ j).wrtClk = _
    rw [Function.update_of_ne (hn.version hj)]
  have hprev : ∀ o', ∀ j ∈ s.hist o', s.pCopy o ≠ some j →
      (s.commitNew W k).wrtClkPrev j = s.wrtClkPrev j := by
    intro o' j hj hne
    simp only [State.commitNew, ho]
    cases hi : s.pCopy o with
    | none => exact Function.update_of_ne (hn.version hj) _ _
    | some i =>
      have hji : j ≠ i := by
        rintro rfl
        exact hne hi
      dsimp only
      rw [Function.update_of_ne hji, Function.update_of_ne (hn.version hj)]
  -- the superseded version has no `wrt_clk_prev` yet
  have htop : ∀ o', ∀ j ∈ s.hist o', s.pCopy o = some j →
      s.wrtClkPrev j = maxVersion ∧ s.status j ≠ .detached := by
    intro o' j hj hp
    cases hh : s.hist o with
    | nil =>
      rw [hc.chains.nil o hh] at hp
      cases hp
    | cons i rest =>
      obtain ⟨h1, h2⟩ := hc.chains.top o i (by rw [hh]; rfl)
      rcases h2 with ⟨h2, h3⟩ | ⟨h2, -⟩
      · rw [hp, Option.some_inj] at h2
        subst h2
        exact ⟨h1, h3⟩
      · rw [hp] at h2
        cases h2
  constructor
  · intro o' j hj
    rcases hhist o' j hj with rfl | hj
    · exact Or.inl ⟨t, hlog⟩
    by_cases hp : s.pCopy o = some j
    · obtain ⟨h1, h2⟩ := htop o' j hj hp
      rcases h.passed o' j hj with hpass | hpass | hpass
      · exact Or.inl hpass
      · exact absurd hpass h2
      · rw [h1, ltClock_iff] at hpass
        omega
    · rw [hprev o' j hj hp]
      exact h.passed o' j hj
  · intro o' j hj hd hlt
    rcases hhist o' j hj with rfl | hj
    · change ltClock B (Function.update s.copies j _ j).wrtClk s.qpClks.lastCkpt at hlt
      rw [Function.update_self, ltClock_iff] at hlt
      dsimp only at hlt
      omega
    rw [hwrt o' j hj] at hlt
    have hcov := h.covered o' j hj hd hlt
    by_cases hp : s.pCopy o = some j
    · rw [(htop o' j hj hp).1, ltClock_iff] at hcov
      omega
    · rw [hprev o' j hj hp]
      exact hcov

theorem cover_commitCopy (h : Cover B s) {ks : List ℕ} (hc : Core B s t W (k :: ks))
    (hws : s.ws t = []) (hnd : (k :: ks).Nodup) (hlog : ∃ w ∈ s.tvNew t, k ∈ w.copies)
    (hW : s.qpClks.qp0 < W) : Cover B (s.commitCopy t W k) := by
  have hn := hc.next hws hnd
  have hkeep : ∀ (x : Copy α) (o : ℕ), ∀ j ∈ s.hist o,
      (Function.update s.copies k x j).wrtClk = (s.copies j).wrtClk := by
    intro x o j hj
    rw [Function.update_of_ne (hn.version hj)]
  have hconst : Cover B (s.commitConst W k) :=
    h.mono rfl (hkeep _) (fun _ _ _ => rfl) (fun _ _ _ => id) (fun _ _ _ => Or.inl) (le_refl _) rfl
  unfold State.commitCopy
  split
  · exact h.mono rfl (hkeep _) (fun _ _ _ => rfl) (fun _ _ _ => id) (fun _ _ _ => Or.inl)
      (le_refl _) rfl
  split
  · exact cover_commitNew h hc hn hlog hW
  · exact hconst
  · exact hconst

theorem cover_tvlogCommit (h : Cover B s) (hc : Core B s t W []) (hv : s.Reading B W)
    (hq : s.qpClks.qp0 ≤ s.localClk t) (hW : s.localClk t < W) (info : β) :
    Cover B (s.tvlogCommit t W info) := by
  refine (commit_induction (P := fun s₁ ks => Cover B s₁ ∧ s₁.qpClks.qp0 < W ∧
      ∀ k ∈ ks, ∃ w ∈ s₁.tvNew t, k ∈ w.copies) ?_
    (s.ws t) (s.commitSet t W info) (core_commitSet hc hv) (Function.update_self _ _ _)
    (hc.locks.nodup t) hW (le_max_right _ _) ⟨cover_commitSet h t W info, ?_, ?_⟩).2.2.1
  · rintro s₁ k ks hc₁ hws hnd - - ⟨h₁, hq₁, hlog₁⟩
    obtain ⟨-, -, -, htv, hqp⟩ := commitCopy_frame s₁ t W k
    refine ⟨cover_commitCopy h₁ hc₁ hws hnd (hlog₁ k List.mem_cons_self) hq₁, ?_, ?_⟩
    · rw [hqp]
      exact hq₁
    · rw [htv]
      exact fun j hj => hlog₁ j (List.mem_cons_of_mem _ hj)
  · show s.qpClks.qp0 < W
    omega
  · intro k hk
    refine ⟨⟨W, s.ws t⟩, ?_, hk⟩
    show _ ∈ Function.update s.tvNew t _ t
    rw [Function.update_self]
    exact List.mem_append_right _ (List.mem_singleton_self _)

/-- The checkpoint is published when no thread has anything left. -/
theorem cover_publish {r : Reclaim} (h : Cover B s) (hc : Core B s t W [])
    (hall : r.tvlog = .ckpt → ∀ t, s.Settled B t) : Cover B (s.publish r) := by
  unfold State.publish
  split
  · rename_i hr
    refine ⟨h.passed, fun o k hk hd hlt => ?_⟩
    rcases h.passed o k hk with ⟨t₁, w, hw, hkw⟩ | hp | hp
    · obtain ⟨-, hwrt, -, -⟩ := hc.member (List.mem_append_right _ hw) hkw
      have hge := hall hr t₁ w hw
      rw [← hwrt] at hge
      exact absurd hlt hge
    · exact absurd hp hd
    · exact hp
  · exact { h with }

/-! ### The write sets of a thread -/

theorem tvNew_markTombstone (s : State α β) (t wrt k : ℕ) :
    (s.markTombstone t wrt k).tvNew = s.tvNew := by
  unfold State.markTombstone
  dsimp only
  split
  · rfl
  · split <;> rfl

/-- The write sets of `s'` are among those of `s`, in the same order. -/
def SubSets (s s' : State α β) : Prop :=
  ∀ t, (s'.tvOld t ++ s'.tvNew t).Sublist (s.tvOld t ++ s.tvNew t)

theorem subSets_markTombstone (h : SubSets s s') (t wrt k : ℕ) :
    SubSets s (s'.markTombstone t wrt k) := by
  intro t₁
  rw [tvOld_markTombstone, tvNew_markTombstone]
  exact h t₁

theorem subSets_dropSet (h : SubSets s s') {w : WrtSet} {rest : List WrtSet}
    (hw : s'.tvOld t = w :: rest) : SubSets s (s'.dropSet t w rest) := by
  intro t₁
  refine List.Sublist.trans ?_ (h t₁)
  show (Function.update s'.tvOld t rest t₁ ++ s'.tvNew t₁).Sublist _
  by_cases he : t₁ = t
  · subst he
    rw [Function.update_self, hw]
    exact List.sublist_cons_self w _
  · rw [Function.update_of_ne he]

theorem subSets_rewind (h : SubSets s s') (t : ℕ) : SubSets s (s'.rewind t) := by
  intro t₁
  refine List.Sublist.trans ?_ (h t₁)
  show (Function.update s'.tvOld t [] t₁ ++ Function.update s'.tvNew t _ t₁).Sublist _
  by_cases he : t₁ = t
  · subst he
    rw [Function.update_self, Function.update_self, List.nil_append]
  · rw [Function.update_of_ne he, Function.update_of_ne he]

theorem subSets_passSet (h : SubSets s s') {w : WrtSet} {rest : List WrtSet}
    (hw : s'.tvNew t = w :: rest) : SubSets s (s'.passSet t w rest) := by
  intro t₁
  refine List.Sublist.trans ?_ (h t₁)
  show (Function.update s'.tvOld t _ t₁ ++ Function.update s'.tvNew t rest t₁).Sublist _
  by_cases he : t₁ = t
  · subst he
    rw [Function.update_self, Function.update_self, hw, List.append_assoc,
      List.singleton_append]
  · rw [Function.update_of_ne he, Function.update_of_ne he]

/-- The logs of the other threads stay, and a checkpoint leaves nothing below its clock. -/
theorem tvlogReclaim_sets (s : State α β) (B t : ℕ) :
    SubSets s (s.tvlogReclaim B t) ∧ (∀ t' ≠ t, (s.tvlogReclaim B t).tvNew t' = s.tvNew t') ∧
      ((s.tvOld t ++ s.tvNew t).Pairwise (fun w w' => w.wrtClk ≤ w'.wrtClk) → s.Synced t →
        (s.req t).tvlog = .ckpt → (s.tvlogReclaim B t).Settled B t) := by
  refine tvlogReclaim_phases
    (P := fun s₁ => SubSets s s₁ ∧ (∀ t' ≠ t, s₁.tvNew t' = s.tvNew t') ∧ Quiet s s₁)
    (Q := fun s₁ => SubSets s s₁ ∧ (∀ t' ≠ t, s₁.tvNew t' = s.tvNew t') ∧ Quiet s s₁)
    (R := fun s₁ => SubSets s s₁ ∧ (∀ t' ≠ t, s₁.tvNew t' = s.tvNew t') ∧
      ((s.tvOld t ++ s.tvNew t).Pairwise (fun w w' => w.wrtClk ≤ w'.wrtClk) → s.Synced t →
        (s.req t).tvlog = .ckpt → s₁.Settled B t))
    ?_ ?_ ?_ ?_ ?_ ?_ ?_ ⟨fun _ => List.Sublist.refl _, fun _ _ => rfl, Quiet.refl s⟩
  · rintro s₁ w rest k ⟨h1, h2, h3⟩ - - -
    refine ⟨subSets_markTombstone h1 t _ _, ?_, quiet_markTombstone h3 _ _⟩
    rw [tvNew_markTombstone]
    exact h2
  · rintro s₁ w rest ⟨h1, h2, h3⟩ hw
    exact ⟨subSets_dropSet h1 hw, h2, { h3 with }⟩
  · rintro s₁ ⟨h1, h2, h3⟩
    refine ⟨subSets_rewind h1 t, fun t' hne => ?_, { h3 with }⟩
    exact (Function.update_of_ne hne _ _).trans (h2 t' hne)
  · rintro s₁ w rest k - ⟨h1, h2, h3⟩ - - - -
    exact ⟨h1, h2, { h3 with }⟩
  · rintro s₁ w rest ⟨h1, h2, h3⟩ hw - -
    refine ⟨subSets_passSet h1 hw, fun t' hne => ?_, { h3 with }⟩
    exact (Function.update_of_ne hne _ _).trans (h2 t' hne)
  · rintro s₁ ⟨h1, h2, h3⟩ hhead
    refine ⟨h1, h2, fun hsort hs hreq => ?_⟩
    have hsort₁ : (s₁.tvNew t).Pairwise fun w w' => w.wrtClk ≤ w'.wrtClk :=
      (hsort.sublist (h1 t)).sublist (List.sublist_append_right _ _)
    have hq : (s₁.clks t).qp0 = s₁.qpClks.qp0 := (h3.synced hs).1
    intro w hw
    change w ∈ s₁.tvNew t at hw
    show gteClock B w.wrtClk s₁.qpClks.qp0
    cases hl : s₁.tvNew t with
    | nil =>
      rw [hl] at hw
      cases hw
    | cons w₀ rest =>
      have hge := hhead hreq w₀ (by rw [hl]; rfl)
      rw [hq, gteClock_iff] at hge
      rw [hl] at hw hsort₁
      rw [gteClock_iff]
      rcases List.mem_cons.mp hw with rfl | hw
      · exact hge
      · have := (List.pairwise_cons.mp hsort₁).1 w hw
        omega
  · intro hn
    refine ⟨fun _ => List.Sublist.refl _, fun _ _ => rfl, fun _ _ hreq => ?_⟩
    rw [hn] at hreq
    cases hreq

theorem ckptlogReclaim_sets (s : State α β) (B t wb : ℕ) :
    (s.ckptlogReclaim B t wb).tvOld = s.tvOld ∧ (s.ckptlogReclaim B t wb).tvNew = s.tvNew := by
  refine ckptlogReclaim_rule (P := fun s₁ => s₁.tvOld = s.tvOld ∧ s₁.tvNew = s.tvNew)
    (fun budget => ?_) ⟨rfl, rfl⟩
  refine ckptlogReclaimX_rule (P := fun s₁ => s₁.tvOld = s.tvOld ∧ s₁.tvNew = s.tvNew)
    ?_ ?_ ?_ ?_ ?_ ⟨rfl, rfl⟩
  · exact fun _ _ _ h₁ _ => h₁
  · intro s₁ h₁ _
    unfold State.noteMinCkpt
    split
    · exact h₁
    · exact h₁
  · exact fun _ _ _ h₁ _ _ _ _ => h₁
  · exact fun _ _ _ h₁ _ _ _ => h₁
  · exact fun _ h₁ => h₁

/-- Reaping a zombie leaves the logs of the others alone, and checkpoints its own. -/
theorem reapThread_sets (s : State α β) (B t : ℕ)
    (hsort : (s.tvOld t ++ s.tvNew t).Pairwise fun w w' => w.wrtClk ≤ w'.wrtClk) :
    SubSets s (s.reapThread B t) ∧ (∀ t' ≠ t, (s.reapThread B t).tvNew t' = s.tvNew t') ∧
      (s.reapThread B t).Settled B t := by
  have hlogs : SubSets s (s.reapLogs B t) ∧ (∀ t' ≠ t, (s.reapLogs B t).tvNew t' = s.tvNew t') ∧
      (s.reapLogs B t).Settled B t := by
    refine reapLogs_phases
      (P := fun s₁ => s₁.tvOld = s.tvOld ∧ s₁.tvNew = s.tvNew ∧ s₁.Synced t)
      (Q := fun s₁ => SubSets s s₁ ∧ (∀ t' ≠ t, s₁.tvNew t' = s.tvNew t') ∧ s₁.Settled B t)
      (R := fun s₁ => SubSets s s₁ ∧ (∀ t' ≠ t, s₁.tvNew t' = s.tvNew t') ∧ s₁.Settled B t)
      ⟨rfl, rfl, synced_syncClks s t⟩ ?_ ?_ ?_ ?_ (fun _ h₁ _ => h₁) ?_
    · exact fun s₁ r h₁ => h₁
    · rintro s₁ ⟨h1, h2, -⟩ ⟨-, hempty⟩
      refine ⟨fun t' => ?_, fun t' _ => ?_, fun w hw => ?_⟩
      · rw [h1, h2]
      · rw [h2]
      · rw [hempty] at hw
        cases hw
    · rintro s₁ ⟨h1, h2, hs⟩ hreq
      obtain ⟨h3, h4, h5⟩ := tvlogReclaim_sets s₁ B t
      refine ⟨fun t' => ?_, fun t' hne => ?_, h5 ?_ hs hreq⟩
      · rw [← h1, ← h2]
        exact h3 t'
      · rw [← h2]
        exact h4 t' hne
      · rw [h1, h2]
        exact hsort
    · exact fun s₁ r h₁ => h₁
    · rintro s₁ ⟨h1, h2, h3⟩ -
      obtain ⟨h4, h5⟩ := ckptlogReclaim_sets s₁ B t 0
      refine ⟨fun t' => ?_, fun t' hne => ?_, fun w hw => ?_⟩
      · rw [h4, h5]
        exact h1 t'
      · rw [h5]
        exact h2 t' hne
      · rw [h5] at hw
        rw [(quiet_ckptlogReclaim s₁ t 0).qpClks]
        exact h3 w hw
  exact reapThread_rule (P := fun s₁ => SubSets s s₁ ∧ (∀ t' ≠ t, s₁.tvNew t' = s.tvNew t') ∧
    s₁.Settled B t) hlogs (fun _ => ⟨hlogs.1, hlogs.2⟩) fun _ => ⟨hlogs.1, hlogs.2⟩

theorem Sets.mono (h : Sets B s) (hsub : SubSets s s')
    (htx : ∀ t, s'.InTx t → s.InTx t ∧ s'.localClk t = s.localClk t)
    (hempty : ∀ t, s'.life t = .fresh ∨ s'.life t = .gone →
      (s.life t = .fresh ∨ s.life t = .gone) ∨ s'.tvOld t ++ s'.tvNew t = []) : Sets B s' := by
  refine ⟨fun t => (h.sorted t).sublist (hsub t), fun t ht w hw => ?_, fun t hl => ?_⟩
  · rw [(htx t ht).2]
    exact h.tx t (htx t ht).1 w ((hsub t).subset hw)
  · rcases hempty t hl with hl | hl
    · have := hsub t
      rw [h.empty t hl] at this
      exact List.sublist_nil.mp this
    · exact hl

/-- Steps that leave the logs, the transactions and the lives of the threads alone. -/
theorem Sets.congr (h : Sets B s) (hold : s'.tvOld = s.tvOld) (hnew : s'.tvNew = s.tvNew)
    (hrun : s'.runCnt = s.runCnt) (hlocal : s'.localClk = s.localClk)
    (hlife : s'.life = s.life) : Sets B s' := by
  refine h.mono (fun t => ?_) (fun t ht => ?_) fun t hl => ?_
  · rw [hold, hnew]
  · rw [State.InTx, hrun] at ht
    exact ⟨ht, congrFun hlocal t⟩
  · rw [hlife] at hl
    exact Or.inl hl

theorem sets_life (h : Sets B s) {l : Life}
    (hl : l ≠ .fresh ∧ l ≠ .gone ∨ s.tvOld t ++ s.tvNew t = []) :
    Sets B { s with life := Function.update s.life t l } := by
  refine h.mono (fun _ => List.Sublist.refl _) (fun _ ht => ⟨ht, rfl⟩) fun t' hl' => ?_
  change Function.update s.life t l t' = _ ∨ Function.update s.life t l t' = _ at hl'
  by_cases he : t' = t
  · subst he
    rw [Function.update_self] at hl'
    rcases hl with hl | hl
    · exact absurd hl' (by simp [hl])
    · exact Or.inr hl
  · rw [Function.update_of_ne he] at hl'
    exact Or.inl hl'

theorem LogsEmpty.sets (h : s.LogsEmpty t) : s.tvOld t ++ s.tvNew t = [] := by
  obtain ⟨h1, h2, -⟩ := h
  rw [List.isEmpty_iff] at h1 h2
  rw [h1, h2]
  rfl

theorem tvlogCommit_sets (s : State α β) (t W : ℕ) (info : β) :
    (s.tvlogCommit t W info).tvOld = s.tvOld ∧
      (s.tvlogCommit t W info).tvNew = Function.update s.tvNew t (s.tvNew t ++ [⟨W, s.ws t⟩]) := by
  have hset : (s.commitSet t W info).tvOld = s.tvOld ∧ (s.commitSet t W info).tvNew =
      Function.update s.tvNew t (s.tvNew t ++ [⟨W, s.ws t⟩]) := ⟨rfl, rfl⟩
  refine foldl_commitCopy_rule (P := fun s₁ => s₁.tvOld = s.tvOld ∧
    s₁.tvNew = Function.update s.tvNew t (s.tvNew t ++ [⟨W, s.ws t⟩])) (fun s₁ k h₁ _ => ?_) hset
  unfold State.commitCopy
  split
  · exact h₁
  · split <;> exact h₁

theorem sets_commit {v : ℕ} {info : β} (h : Sets B s) (hi : TxInv B s) (ht : s.InTx t)
    (hgt : s.localClk t + B < v) : Sets B ((s.tvlogCommit t v info).stop t) := by
  obtain ⟨hold, hnew⟩ := tvlogCommit_sets s t v info
  have hsame := sameThreads_tvlogCommit s t v info
  have htx : ∀ t', ((s.tvlogCommit t v info).stop t).InTx t' → t' ≠ t ∧ s.InTx t' := by
    intro t' ht'
    have htc : (s.tvlogCommit t v info).InTx t := by
      rw [State.InTx, hsame.runCnt]
      exact ht
    have h1 := (inTx_stop htc ht').1
    rw [State.InTx, hsame.runCnt] at h1
    refine ⟨?_, h1⟩
    rintro rfl
    change Function.update (s.tvlogCommit t' v info).runCnt t' _ t' % 2 = 1 at ht'
    rw [Function.update_self, hsame.runCnt] at ht'
    change s.runCnt t' % 2 = 1 at h1
    omega
  have hlog : ∀ t', ((s.tvlogCommit t v info).stop t).tvOld t' ++
      ((s.tvlogCommit t v info).stop t).tvNew t' =
        if t' = t then s.tvOld t ++ s.tvNew t ++ [⟨v, s.ws t⟩] else s.tvOld t' ++ s.tvNew t' := by
    intro t'
    show (s.tvlogCommit t v info).tvOld t' ++ (s.tvlogCommit t v info).tvNew t' = _
    rw [hold, hnew]
    by_cases he : t' = t
    · subst he
      rw [if_pos rfl, Function.update_self, List.append_assoc]
    · rw [if_neg he, Function.update_of_ne he]
  refine ⟨fun t' => ?_, fun t' ht' w hw => ?_, fun t' hl => ?_⟩
  · rw [hlog]
    split
    · refine List.pairwise_append.mpr ⟨h.sorted t, List.pairwise_singleton _ _, ?_⟩
      intro w hw w' hw'
      rw [List.mem_singleton.mp hw']
      have := h.tx t ht w hw
      show w.wrtClk ≤ v
      omega
    · exact h.sorted t'
  · obtain ⟨hne, ht'⟩ := htx t' ht'
    rw [hlog, if_neg hne] at hw
    show w.wrtClk ≤ (s.tvlogCommit t v info).localClk t' + B
    rw [hsame.localClk]
    exact h.tx t' ht' w hw
  · change (s.tvlogCommit t v info).life t' = _ ∨ (s.tvlogCommit t v info).life t' = _ at hl
    rw [hsame.life] at hl
    have hne : t' ≠ t := by
      rintro rfl
      rw [hi.live t' ht] at hl
      simp at hl
    rw [hlog, if_neg hne]
    exact h.empty t' hl

theorem sets_step {op : Op α β} (h : Sets B s) (hi : Inv B s) (hs : step B s op = some s') :
    Sets B s' := by
  cases Step.of_step hs with
  | threadInit t hf => exact { sets_life (t := t) (l := .live) h (Or.inl (by simp)) with }
  | begin t v hl _ hv =>
    refine { h with tx := fun t' ht' w hw => ?_ }
    show w.wrtClk ≤ Function.update s.localClk t v t' + B
    by_cases he : t' = t
    · rw [he, Function.update_self]
      exact le_trans (hi.core.members.old t' w hw) hv.1
    · rw [Function.update_of_ne he]
      change Function.update s.runCnt t _ t' % 2 = 1 at ht'
      rw [Function.update_of_ne he] at ht'
      exact h.tx t' ht' w hw
  | endRead t v info ht =>
    exact { h with tx := fun t' ht' => h.tx t' (inTx_stop ht ht').1 }
  | endTx t v info ht _ hgt =>
    rw [gtClock_iff] at hgt
    exact sets_commit h hi.tx ht (by omega)
  | abort t ht =>
    have hab : Sets B (s.unlockAbort t) := { h with }
    exact { hab with tx := fun t' ht' => h.tx t' (inTx_stop (s := s.unlockAbort t) ht ht').1 }
  | tvlogReclaim t =>
    have hq := quiet_tvlogReclaim (B := B) s t
    refine h.mono (tvlogReclaim_sets s B t).1 (fun t' ht' => ?_) fun t' hl => ?_
    · rw [State.InTx, hq.runCnt] at ht'
      exact ⟨ht', congrFun hq.localClk t'⟩
    · rw [hq.life] at hl
      exact Or.inl hl
  | ckptlogReclaim t wb =>
    have hq := quiet_ckptlogReclaim (B := B) s t wb
    obtain ⟨h1, h2⟩ := ckptlogReclaim_sets s B t wb
    exact h.congr h1 h2 hq.runCnt hq.localClk hq.life
  | finishStart t => exact sets_life h (Or.inl (by simp))
  | finishOplog t => exact { sets_life (t := t) (l := .flushed) h (Or.inl (by simp)) with }
  | deregister t => exact { sets_life (t := t) (l := .limbo) h (Or.inl (by simp)) with }
  | zombinize t =>
    unfold State.zombinize
    split
    · rename_i he
      exact { sets_life (l := .gone) h (Or.inr (LogsEmpty.sets he)) with }
    · exact sets_life h (Or.inl (by simp))
  | threadFree t =>
    unfold State.threadFree
    dsimp only
    split
    · exact { h with }
    · exact { h with }
  | reap t r done _ hz =>
    have hf := reapThread_frame s B t
    have hsets := reapThread_sets s B t (h.sorted t)
    refine h.mono hsets.1 (fun t' ht' => ?_) fun t' hl => ?_
    · change (s.reapThread B t).runCnt t' % 2 = 1 at ht'
      rw [hf.runCnt] at ht'
      exact ⟨ht', congrFun hf.localClk t'⟩
    · change (s.reapThread B t).life t' = _ ∨ (s.reapThread B t).life t' = _ at hl
      by_cases he : t' = t
      · subst he
        refine Or.inr ?_
        -- the reaper gives up a thread only when its logs are empty
        have hgone : (s.reapThread B t').life t' = .gone →
            (s.reapThread B t').tvOld t' ++ (s.reapThread B t').tvNew t' = [] := by
          refine reapThread_rule (P := fun s₁ => s₁.life t' = .gone →
            s₁.tvOld t' ++ s₁.tvNew t' = []) ?_ (fun he _ => LogsEmpty.sets he)
            fun he _ => LogsEmpty.sets he
          intro hg
          rw [(reapLogs_frame s B t').1.life] at hg
          change s.life t' = _ at hg
          rw [hz] at hg
          cases hg
        refine hgone ?_
        rcases hl with hl | hl
        · rcases hf.self with hself | hself
          · rw [hself, hz] at hl
            cases hl
          · rw [hself] at hl
            cases hl
        · exact hl
      · rw [hf.life t' he] at hl
        exact Or.inl hl
  | publish r =>
    unfold State.publish
    exact { h with }
  | _ => exact { h with }

/-! ### The round -/

/-- Steps within a phase of the round. -/
theorem RoundOk.mono (h : RoundOk B s) (hphase : s'.phase = s.phase)
    (hset : ∀ t, s.Settled B t → s'.Settled B t) (hdue : ∀ t, s.Due B t → s'.Due B t)
    (hlive : ∀ t, s'.InLive t → s.InLive t ∨ s'.Due B t)
    (hzombie : ∀ t, s.life t = .zombie → s'.life t = .zombie ∨ s'.Due B t) : RoundOk B s' := by
  unfold RoundOk at h ⊢
  rw [hphase]
  cases hp : s.phase with
  | trigger r done =>
    rw [hp] at h
    exact fun hr t ht => hdue t (h hr t ht)
  | reapStart r =>
    rw [hp] at h
    intro hr t ht
    rcases hlive t ht with hl | hl
    · exact hdue t (h hr t hl)
    · exact hl
  | reap r done =>
    rw [hp] at h
    intro hr t
    rcases h hr t with hd | ⟨hz, hn⟩
    · exact Or.inl (hdue t hd)
    · rcases hzombie t hz with hz | hz
      · exact Or.inr ⟨hz, hn⟩
      · exact Or.inl hz
  | help r =>
    rw [hp] at h
    exact fun hr t => hdue t (h hr t)
  | barrier r =>
    rw [hp] at h
    exact fun hr t => hset t (h hr t)
  | _ => trivial

/-- Steps that leave the logs, the requests and the lives of the threads alone. -/
theorem RoundOk.congr (h : RoundOk B s) (hphase : s'.phase = s.phase) (hnew : s'.tvNew = s.tvNew)
    (hqp : s'.qpClks = s.qpClks) (hlife : s'.life = s.life) (hreq : s'.req = s.req) :
    RoundOk B s' := by
  have hset : ∀ t, s'.Settled B t ↔ s.Settled B t := by
    intro t
    rw [State.Settled, State.Settled, hnew, hqp]
  have hlive : ∀ t, s'.InLive t ↔ s.InLive t := by
    intro t
    rw [State.InLive, State.InLive, hlife]
  refine h.mono hphase (fun t => (hset t).mpr) (fun t => ?_) (fun t hl => Or.inl ((hlive t).mp hl))
    fun t hz => Or.inl ((congrFun hlife t).trans hz)
  rw [State.Due, State.Due, hset, hlive, hreq]
  exact id

/-- A thread that is settled, or stays in the live list, moves on in its life. -/
theorem roundOk_life {l : Life} (h : RoundOk B s) (hz : s.life t ≠ .zombie)
    (ht : s.InLive t ∧ (l = .live ∨ l = .finishing ∨ l = .flushed) ∨ s.Settled B t ∨
      s.BeforeReaping ∧ ¬ (l = .live ∨ l = .finishing ∨ l = .flushed)) :
    RoundOk B { s with life := Function.update s.life t l } := by
  have hlive : ∀ t' ≠ t, ({ s with life := Function.update s.life t l } : State α β).InLive t' ↔
      s.InLive t' := by
    intro t' hne
    show Function.update s.life t l t' = _ ∨ Function.update s.life t l t' = _ ∨
      Function.update s.life t l t' = _ ↔ _
    rw [Function.update_of_ne hne]
    exact Iff.rfl
  have hself : ({ s with life := Function.update s.life t l } : State α β).InLive t ↔
      (l = .live ∨ l = .finishing ∨ l = .flushed) := by
    show Function.update s.life t l t = _ ∨ Function.update s.life t l t = _ ∨
      Function.update s.life t l t = _ ↔ _
    rw [Function.update_self]
  by_cases hb : s.BeforeReaping ∧ ¬ (l = .live ∨ l = .finishing ∨ l = .flushed)
  · -- the thread leaves the live list before the QP thread looks at the zombies
    obtain ⟨hb, hl⟩ := hb
    unfold State.BeforeReaping at hb
    unfold RoundOk at h ⊢
    split at hb
    · rename_i r hp
      rw [hp] at h
      dsimp only
      rw [hp]
      intro hr t' ht'
      have hne : t' ≠ t := by
        rintro rfl
        exact hl (hself.mp ht')
      rcases h hr t' ((hlive t' hne).mp ht') with hd | ⟨hd, hq⟩
      · exact Or.inl hd
      · exact Or.inr ⟨(hlive t' hne).mpr hd, hq⟩
    · cases hb
  have ht' : s.InLive t ∧ (l = .live ∨ l = .finishing ∨ l = .flushed) ∨ s.Settled B t := by
    rcases ht with ht | ht | ht
    · exact Or.inl ht
    · exact Or.inr ht
    · exact absurd ht hb
  refine h.mono rfl (fun _ hs => hs) (fun t' hd => ?_) (fun t' hl => ?_) fun t' hz' => ?_
  · by_cases he : t' = t
    · subst he
      rcases ht' with ht' | ht'
      · exact hd.imp_right fun hq => ⟨hself.mpr ht'.2, hq.2⟩
      · exact Or.inl ht'
    · exact hd.imp_right fun hq => ⟨(hlive t' he).mpr hq.1, hq.2⟩
  · by_cases he : t' = t
    · subst he
      rcases ht' with ht' | ht'
      · exact Or.inl ht'.1
      · exact Or.inr (Or.inl ht')
    · exact Or.inl ((hlive t' he).mp hl)
  · left
    have hne : t' ≠ t := by
      rintro rfl
      exact hz hz'
    exact (Function.update_of_ne hne _ _).trans hz'

theorem InLive.ne_zombie (h : s.InLive t) : s.life t ≠ .zombie := by
  rcases h with h | h | h <;> rw [h] <;> simp

theorem roundOk_tvlogReclaim (h : RoundOk B s) (hi : Inv B s) (hsets : Sets B s)
    (hl : s.InLive t) : RoundOk B (s.tvlogReclaim B t) := by
  have hq := quiet_tvlogReclaim (B := B) s t
  obtain ⟨-, hother, hself⟩ := tvlogReclaim_sets s B t
  by_cases hr : s.req t = .none
  · rw [State.tvlogReclaim, hr]
    exact h
  obtain ⟨hsync, r, hp, hmode⟩ := hi.req t hl hr
  by_cases hn : (s.req t).tvlog = .none
  · rw [State.tvlogReclaim, hn]
    exact h
  have hmode := hmode.resolve_left hn
  have hset : ∀ t' ≠ t, (s.tvlogReclaim B t).Settled B t' ↔ s.Settled B t' := by
    intro t' hne
    rw [State.Settled, State.Settled, hother t' hne, hq.qpClks]
  have hlive : ∀ t', (s.tvlogReclaim B t).InLive t' ↔ s.InLive t' := by
    intro t'
    rw [State.InLive, State.InLive, hq.life]
  have hreq : ∀ t' ≠ t, (s.tvlogReclaim B t).req t' = s.req t' := by
    intro t' hne
    rw [req_tvlogReclaim, Function.update_of_ne hne]
  by_cases hck : r.tvlog = .ckpt
  · -- the thread has checkpointed its log
    have ht := hself (hsets.sorted t) hsync (hmode.trans hck)
    refine h.mono hq.phase (fun t' hs => ?_) (fun t' hd => ?_)
      (fun t' hl' => Or.inl ((hlive t').mp hl')) fun t' hz => Or.inl ((congrFun hq.life t').trans hz)
    · by_cases he : t' = t
      · rw [he]
        exact ht
      · exact (hset t' he).mpr hs
    · by_cases he : t' = t
      · rw [he]
        exact Or.inl ht
      · rw [State.Due, hset t' he, hlive, hreq t' he]
        exact hd
  · -- no checkpoint round
    unfold RoundOk
    rw [hq.phase]
    cases hph : s.phase with
    | trigger r' done =>
      rw [hph] at hp
      cases hp
      exact fun hc => absurd hc hck
    | reapStart r' =>
      rw [hph] at hp
      cases hp
      exact fun hc => absurd hc hck
    | reap r' done =>
      rw [hph] at hp
      cases hp
      exact fun hc => absurd hc hck
    | help r' =>
      rw [hph] at hp
      cases hp
      exact fun hc => absurd hc hck
    | barrier r' =>
      rw [hph] at hp
      cases hp
    | _ => trivial

theorem roundOk_reapThread {r : Reclaim} {done : List ℕ} (h : RoundOk B s) (hsets : Sets B s)
    (hp : s.phase = .reap r done) :
    RoundOk B { s.reapThread B t with phase := .reap r (t :: done) } := by
  have hf := reapThread_frame s B t
  obtain ⟨-, hother, hself⟩ := reapThread_sets s B t (hsets.sorted t)
  unfold RoundOk at h
  rw [hp] at h
  intro hr t'
  by_cases he : t' = t
  · subst he
    exact Or.inl (Or.inl hself)
  have hlife : (s.reapThread B t).life t' = s.life t' := hf.life t' he
  rcases h hr t' with (hd | ⟨hd, hq⟩) | ⟨hz, hn⟩
  · refine Or.inl (Or.inl ?_)
    intro w hw
    change w ∈ (s.reapThread B t).tvNew t' at hw
    show gteClock B w.wrtClk (s.reapThread B t).qpClks.qp0
    rw [hother t' he] at hw
    rw [hf.qpClks]
    exact hd w hw
  · refine Or.inl (Or.inr ⟨?_, ?_⟩)
    · show (s.reapThread B t).InLive t'
      rw [State.InLive, hlife]
      exact hd
    · show ((s.reapThread B t).req t').tvlog = _
      rw [hf.req t' he]
      exact hq
  · refine Or.inr ⟨hlife.trans hz, ?_⟩
    simp only [List.mem_cons, not_or]
    exact ⟨he, hn⟩

theorem settled_of_empty (h : s.tvOld t ++ s.tvNew t = []) : s.Settled B t := by
  intro w hw
  rw [(List.append_eq_nil_iff.mp h).2] at hw
  cases hw

theorem roundOk_step {op : Op α β} (h : RoundOk B s) (hi : Inv B s) (hsets : Sets B s)
    (hok : LeavesSettled B s op) (hs : step B s op = some s') : RoundOk B s' := by
  cases Step.of_step hs with
  | threadInit t hf =>
    -- a new thread has no write set
    have hset := settled_of_empty (B := B) (hsets.empty t (Or.inl hf))
    have hlife : RoundOk B { s with life := Function.update s.life t .live } :=
      roundOk_life h (by rw [hf]; simp) (Or.inr (Or.inl hset))
    refine hlife.mono rfl (fun _ hd => hd) (fun t' hd => ?_) (fun _ hl => Or.inl hl)
      fun _ hz => Or.inl hz
    by_cases he : t' = t
    · subst he
      exact Or.inl hset
    · refine hd.imp_right fun hd => ⟨hd.1, ?_⟩
      show (Function.update s.req t .none t').tvlog = _
      rw [Function.update_of_ne he]
      exact hd.2
  | endTx t v info ht _ hgt =>
    obtain ⟨-, hnew⟩ := tvlogCommit_sets s t v info
    have hsame := sameThreads_tvlogCommit s t v info
    have hreq : (s.tvlogCommit t v info).req = s.req := by
      refine foldl_commitCopy_rule (P := fun s₁ => s₁.req = s.req) (fun s₁ k h₁ _ => ?_) rfl
      unfold State.commitCopy
      split
      · exact h₁
      · split <;> exact h₁
    have hq := hi.tx.qp0 t ht
    rw [gtClock_iff] at hgt
    have hset : ∀ t', s.Settled B t' → ((s.tvlogCommit t v info).stop t).Settled B t' := by
      intro t' hset w hw
      change w ∈ (s.tvlogCommit t v info).tvNew t' at hw
      show gteClock B w.wrtClk (s.tvlogCommit t v info).qpClks.qp0
      rw [hnew] at hw
      rw [hsame.qpClks]
      by_cases he : t' = t
      · subst he
        rw [Function.update_self] at hw
        rcases List.mem_append.mp hw with hw | hw
        · exact hset w hw
        · rw [List.mem_singleton.mp hw, gteClock_iff]
          dsimp only
          omega
      · rw [Function.update_of_ne he] at hw
        exact hset w hw
    have hlive : ∀ t', ((s.tvlogCommit t v info).stop t).InLive t' ↔ s.InLive t' := by
      intro t'
      show (s.tvlogCommit t v info).InLive t' ↔ _
      rw [State.InLive, State.InLive, hsame.life]
    refine h.mono hsame.phase hset (fun t' hd => ?_) (fun t' hl => Or.inl ((hlive t').mp hl))
      fun t' hz => Or.inl ((congrFun hsame.life t').trans hz)
    rcases hd with hd | ⟨hd, hr⟩
    · exact Or.inl (hset t' hd)
    · refine Or.inr ⟨(hlive t').mpr hd, ?_⟩
      show ((s.tvlogCommit t v info).req t').tvlog = _
      rw [hreq]
      exact hr
  | tvlogReclaim t hm =>
    exact roundOk_tvlogReclaim h hi hsets hm.inLive
  | ckptlogReclaim t wb =>
    have hq := quiet_ckptlogReclaim (B := B) s t wb
    obtain ⟨-, hnew⟩ := ckptlogReclaim_sets s B t wb
    have hset : ∀ t', (s.ckptlogReclaim B t wb).Settled B t' ↔ s.Settled B t' := by
      intro t'
      rw [State.Settled, State.Settled, hnew, hq.qpClks]
    have hlive : ∀ t', (s.ckptlogReclaim B t wb).InLive t' ↔ s.InLive t' := by
      intro t'
      rw [State.InLive, State.InLive, hq.life]
    refine h.mono hq.phase (fun t' => (hset t').mpr) (fun t' hd => ?_)
      (fun t' hl => Or.inl ((hlive t').mp hl)) fun t' hz => Or.inl ((congrFun hq.life t').trans hz)
    rw [State.Due, hset, hlive, req_ckptlogReclaim]
    refine hd.imp_right fun hd => ⟨hd.1, ?_⟩
    by_cases he : t' = t
    · subst he
      rw [Function.update_self]
      exact hd.2
    · rw [Function.update_of_ne he]
      exact hd.2
  | finishStart t hl =>
    exact roundOk_life h (by rw [hl]; simp) (Or.inl ⟨Or.inl hl, by simp⟩)
  | finishOplog t hl =>
    have hlife : RoundOk B { s with life := Function.update s.life t .flushed } :=
      roundOk_life h (by rw [hl]; simp) (Or.inl ⟨Or.inr (Or.inl hl), by simp⟩)
    exact hlife.congr rfl rfl rfl rfl rfl
  | deregister t hl hn =>
    have hlife : RoundOk B { s with life := Function.update s.life t .limbo } := by
      by_cases hb : s.BeforeReaping
      · exact roundOk_life h (by rw [hl]; simp) (Or.inr (Or.inr ⟨hb, by simp⟩))
      by_cases hr : s.Reaping
      · exact roundOk_life h (by rw [hl]; simp) (Or.inr (Or.inl (hok hr)))
      -- in the other phases nothing is asked of the thread, or everything is done
      unfold RoundOk at h ⊢
      unfold State.BeforeReaping at hb
      unfold State.Reaping at hr
      unfold State.LiveLocked at hn
      dsimp only
      cases hp : s.phase with
      | trigger r done =>
        rw [hp] at hn
        exact absurd trivial hn
      | reapStart r =>
        rw [hp] at hb
        exact fun hc => absurd hc hb
      | reap r done =>
        rw [hp] at hr
        exact fun hc => absurd hc hr
      | help r =>
        rw [hp] at hr
        exact fun hc => absurd hc hr
      | barrier r =>
        rw [hp] at h
        exact h
      | _ => trivial
    exact hlife.congr rfl rfl rfl rfl rfl
  | zombinize t hl hn =>
    have hlife : ∀ l, ¬ (l = .live ∨ l = .finishing ∨ l = .flushed) →
        RoundOk B { s with life := Function.update s.life t l } := by
      intro l hl'
      by_cases hb : s.BeforeReaping
      · exact roundOk_life h (by rw [hl]; simp) (Or.inr (Or.inr ⟨hb, hl'⟩))
      -- a thread that is in no list is settled when the zombies have been reaped
      have hnl : ¬ s.InLive t := by
        rintro (h' | h' | h') <;> rw [hl] at h' <;> cases h'
      have hne : ∀ {p : Prop} {t'}, s.InLive t' ∧ p →
          ({ s with life := Function.update s.life t l } : State α β).InLive t' ∧ p := by
        rintro p t' ⟨h1, h2⟩
        have hne : t' ≠ t := by
          rintro rfl
          exact hnl h1
        refine ⟨?_, h2⟩
        show Function.update s.life t l t' = _ ∨ Function.update s.life t l t' = _ ∨
          Function.update s.life t l t' = _
        rw [Function.update_of_ne hne]
        exact h1
      unfold RoundOk at h ⊢
      unfold State.BeforeReaping at hb
      unfold State.ZombieLocked at hn
      dsimp only
      cases hp : s.phase with
      | trigger r done =>
        rw [hp] at h
        exact fun hc t' ht' => (h hc t' ht').imp_right hne
      | reapStart r =>
        rw [hp] at hb
        exact fun hc => absurd hc hb
      | reap r done =>
        rw [hp] at hn
        exact absurd trivial hn
      | help r =>
        rw [hp] at h
        exact fun hc t' => (h hc t').imp_right hne
      | barrier r =>
        rw [hp] at h
        exact h
      | _ => trivial
    unfold State.zombinize
    split
    · exact (hlife .gone (by simp)).congr rfl rfl rfl rfl rfl
    · exact hlife .zombie (by simp)
  | threadFree t =>
    unfold State.threadFree
    dsimp only
    split
    · exact h.congr rfl rfl rfl rfl rfl
    · exact h.congr rfl rfl rfl rfl rfl
  | startTrigger hp =>
    intro _ t ht
    cases ht
  | trigger t r done hp hl hn =>
    unfold RoundOk at h
    rw [hp] at h
    intro hr t' ht'
    by_cases he : t' = t
    · subst he
      refine Or.inr ⟨hl, ?_⟩
      show (Function.update s.req t' r t').tvlog = _
      rw [Function.update_self]
      exact hr
    · refine (h hr t' ((List.mem_cons.mp ht').resolve_left he)).imp_right fun hd => ⟨hd.1, ?_⟩
      show (Function.update s.req t r t').tvlog = _
      rw [Function.update_of_ne he]
      exact hd.2
  | endTrigger r done hp hall =>
    unfold RoundOk at h
    rw [hp] at h
    intro hr t hl
    exact h hr t (hall t (hi.tx.mem_tids hl) hl)
  | reapLock r hp =>
    unfold RoundOk at h
    rw [hp] at h
    intro hr t
    have hb : s.BeforeReaping := by
      unfold State.BeforeReaping
      rw [hp]
      exact hr
    show s.Due B t ∨ s.life t = .zombie ∧ t ∉ []
    cases hl : s.life t with
    | fresh => exact Or.inl (Or.inl (settled_of_empty (hsets.empty t (Or.inl hl))))
    | gone => exact Or.inl (Or.inl (settled_of_empty (hsets.empty t (Or.inr hl))))
    | limbo => exact Or.inl (Or.inl (hok hb t (hi.tx.reg t (by rw [hl]; simp)) hl))
    | zombie => exact Or.inr ⟨rfl, List.not_mem_nil⟩
    | live => exact Or.inl (h hr t (Or.inl hl))
    | finishing => exact Or.inl (h hr t (Or.inr (Or.inl hl)))
    | flushed => exact Or.inl (h hr t (Or.inr (Or.inr hl)))
  | reap t r done hp => exact roundOk_reapThread h hsets hp
  | reapRetry r done hp =>
    unfold RoundOk at h
    rw [hp] at h
    intro hr t hl
    rcases h hr t with hd | ⟨hz, -⟩
    · exact hd
    · exact absurd hz (InLive.ne_zombie hl)
  | endReap r done hp hall =>
    unfold RoundOk at h
    rw [hp] at h
    intro hr t
    rcases h hr t with hd | ⟨hz, hn⟩
    · exact hd
    · exact absurd (hall t (hi.tx.reg t (by rw [hz]; simp)) hz) hn
  | startBarrier r hp hall =>
    unfold RoundOk at h
    rw [hp] at h
    intro hr t
    rcases h hr t with hd | ⟨hl, hq⟩
    · exact hd
    · rw [hall t (hi.tx.mem_tids hl) hl] at hq
      cases hq
  | detect v => trivial
  | detected clk => trivial
  | skip => trivial
  | publish r =>
    unfold State.publish
    trivial
  | _ => exact h.congr rfl rfl rfl rfl rfl

theorem cover_step {op : Op α β} (h : Cover B s) (hi : Inv B s) (hround : RoundOk B s)
    (hs : step B s op = some s') : Cover B s' := by
  have hc := hi.core
  cases Step.of_step hs with
  | lock t o kind => exact cover_lock h hc
  | write t k a => exact cover_write h
  | endTx t v info ht hv hgt =>
    rw [gtClock_iff] at hgt
    exact { cover_tvlogCommit h (hc.retag t v) hv (hi.tx.qp0 t ht) (by omega) info with }
  | tvlogReclaim t hm =>
    rcases hi.synced_or_idle hm with hsy | he
    · exact cover_tvlogReclaim h hc hsy
    · rw [he]
      exact h
  | ckptlogReclaim t wb => exact cover_ckptlogReclaim h t wb
  | zombinize t =>
    unfold State.zombinize
    split
    · exact { h with }
    · exact { h with }
  | threadFree t =>
    unfold State.threadFree
    dsimp only
    split
    · exact { h with }
    · exact { h with }
  | detected clk hp =>
    refine h.mono rfl (fun _ _ _ => rfl) (fun _ _ _ => rfl) (fun _ _ _ => id)
      (fun _ _ _ => Or.inl) ?_ rfl
    have := (hc.clocks.wait clk hp).2
    rw [ltClock_iff] at this
    show s.qpClks.qp0 ≤ correctQpClock B clk
    omega
  | reap t => exact { cover_reapThread h hc t with }
  | publish r hp =>
    refine cover_publish h hc fun hr t => ?_
    unfold RoundOk at hround
    rw [hp] at hround
    exact hround hr t
  | _ => exact { h with }

theorem cover_initial (org : ℕ → α) : Cover B (initial org : State α β) := by
  constructor
  · intro o k hk
    cases hk
  · intro o k hk
    cases hk

theorem sets_initial (org : ℕ → α) : Sets B (initial org : State α β) := by
  refine ⟨fun _ => List.Pairwise.nil, ?_, fun _ _ => rfl⟩
  intro t ht
  cases ht

/-- In every run in which threads leave the live list settled, the published checkpoint
covers the versions below it. -/
theorem Reachable.cover (hr : Reachable B org (LeavesSettled B) s) :
    Cover B s ∧ Sets B s ∧ RoundOk B s := by
  have h : Inv B s ∧ Cover B s ∧ Sets B s ∧ RoundOk B s :=
    Run.Reach.invariant (I := fun s => Inv B s ∧ Cover B s ∧ Sets B s ∧ RoundOk B s)
      (fun _ h0 => h0 ▸ ⟨inv_initial org, cover_initial org, sets_initial org, trivial⟩)
      (fun _ _ _ ⟨hi, hc, hsets, hround⟩ hok hs => ⟨inv_step hi hs, cover_step hc hi hround hs,
        sets_step hsets hi hs, roundOk_step hround hi hsets hok hs⟩) hr
  exact h.2

/-- When a checkpoint is published, the current master of every object that was not given
back holds its newest version below the checkpoint or a newer one, or is its tombstone,
and no log holds a newest version below the checkpoint that is not detached. -/
theorem published_ckpt_complete (hr : Reachable B org (LeavesSettled B) s) {r : Reclaim}
    (hp : s.phase = .barrier r) (hck : r.tvlog = .ckpt) (hs : step B s .publish = some s') :
    s'.nvmLastCkpt = s.qpClks.qp0 ∧
    (∀ o ∉ s'.freed, ∀ k ∈ s'.hist o, ltClock B (s'.copies k).wrtClk s'.nvmLastCkpt →
      (∃ j ∈ s'.hist o, (s'.copies k).wrtClk ≤ (s'.copies j).wrtClk ∧ s'.Holds o j) ∨
      ∃ e, s'.curAct o = some e ∧ (s'.entries e).isTomb = true) ∧
    ∀ t, ∀ w ∈ s'.tvOld t ++ s'.tvNew t, ∀ k ∈ w.copies, ∀ o, k ∈ s'.hist o →
      ltClock B (s'.copies k).wrtClk s'.nvmLastCkpt →
      (∀ j ∈ s'.hist o, ltClock B (s'.copies j).wrtClk s'.nvmLastCkpt →
        (s'.copies j).wrtClk ≤ (s'.copies k).wrtClk) → s'.status k = .detached := by
  have hr' : Reachable B org (LeavesSettled B) s' := .step (i := .publish) hr trivial hs
  have hi := Reachable.inv hr'
  obtain ⟨hcover, -, -⟩ := Reachable.cover hr'
  have hcont := Reachable.contents hr'
  refine ⟨?_, fun o ho k hk hlt => ?_, fun t w _ k _ o hk hlt hnew => ?_⟩
  · have he : s' = s.publish r := by
      cases Step.of_step hs with
      | publish r' hp' =>
        rw [hp] at hp'
        cases hp'
        rfl
    rw [he, State.publish]
    exact if_pos hck
  · rw [hi.core.clocks.nvm] at hlt
    have hle := hcover.le_curWrt hi.core hk hlt
    rcases hcont.cur hi.core ho with ⟨h0, -⟩ | ⟨j, hj, hold⟩ | htomb
    · have := hcont.pos o k hk
      omega
    · exact Or.inl ⟨j, hj, by rw [← hold.1]; exact hle, hold⟩
    · exact Or.inr htomb
  · rw [hi.core.clocks.nvm] at hlt hnew
    exact hcover.detached hi.core hk hlt hnew

/-- Two threads write an object each.  The thread 0 ends while the checkpoint round goes on: it
is a zombie when the QP thread looks.  Both versions are in the checkpoint. -/
theorem published_ckpt_complete_zombie : ∃ s s' : State ℕ ℕ,
    Reachable 0 (fun _ => 0) (LeavesSettled 0) s ∧ step 0 s .publish = some s' ∧
      s.life 0 = .zombie ∧ s'.nvmLastCkpt = 30 ∧
      (∃ j ∈ s'.hist 5, (s'.copies 0).wrtClk ≤ (s'.copies j).wrtClk ∧ s'.Holds 5 j) ∧
      s'.status 0 = .detached ∧ s'.status 1 = .detached := by
  have hd : (Run.exec (step 0) (LeavesSettled 0) (initial fun _ => 0 : State ℕ ℕ)
      [.threadInit 0, .threadInit 1, .begin 0 10, .lock 0 5 .copy, .endTx 0 20 7, .begin 1 21,
        .lock 1 6 .copy, .endTx 1 22 8, .finishStart 0, .finishOplog 0, .request ⟨.ckpt, .none⟩,
        .detect 30, .detected, .startTrigger, .trigger 0, .trigger 1, .endTrigger, .deregister 0,
        .zombinize 0, .reapLock, .reap 0, .endReap, .tvlogReclaim 1, .startBarrier]).map (fun s =>
        decide (s.phase = .barrier ⟨.ckpt, .none⟩ ∧ s.life 0 = .zombie ∧ s.qpClks.qp0 = 30 ∧
          5 ∉ s.freed ∧ s.hist 5 = [0] ∧ s.hist 6 = [1] ∧ (s.copies 0).wrtClk = 20 ∧
          (s.copies 1).wrtClk = 22 ∧ (s.tvOld 0).map WrtSet.copies = [[0]] ∧
          (s.tvOld 1).map WrtSet.copies = [[1]] ∧ s.curAct 5 = some 0 ∧
          (s.entries 0).isTomb = false)) = some true := by
    decide +kernel
  obtain ⟨s, hs, heq⟩ := Option.map_eq_some_iff.mp hd
  obtain ⟨hp, hz, hq, hfreed, h5, h6, hclk0, hclk1, hlog0, hlog1, hcur, htomb⟩ :=
    of_decide_eq_true heq
  have hr : Reachable 0 (fun _ => 0) (LeavesSettled 0) s := .of_exec (.init rfl) hs
  have hstep : step 0 s .publish = some (s.publish ⟨.ckpt, .none⟩) := by
    simp only [step]
    rw [hp]
  obtain ⟨hlast, hmaster, hdet⟩ := published_ckpt_complete hr hp rfl hstep
  rw [hq] at hlast
  -- a log that holds the only version of an object, below the checkpoint
  have hdetached : ∀ {t k o c}, (s.tvOld t).map WrtSet.copies = [[k]] → s.hist o = [k] →
      (s.copies k).wrtClk = c → c < 30 → (s.publish ⟨.ckpt, .none⟩).status k = .detached := by
    intro t k o c hlog hh hc hlt
    obtain ⟨w, hw, hk⟩ : ∃ w ∈ s.tvOld t, w.copies = [k] :=
      List.mem_map.mp (by rw [hlog]; exact List.mem_singleton_self _)
    have hhist : (s.publish ⟨.ckpt, .none⟩).hist o = [k] := hh
    refine hdet t w (List.mem_append_left _ hw) k (by rw [hk]; exact List.mem_singleton_self _) o
      (by rw [hhist]; exact List.mem_singleton_self _) ?_ fun j hj _ => ?_
    · rw [hlast, ltClock_iff]
      show (s.copies k).wrtClk + 0 < 30
      rw [hc]
      exact hlt
    · rw [hhist] at hj
      rw [List.mem_singleton.mp hj]
  refine ⟨s, _, hr, hstep, hz, hlast, ?_, hdetached hlog0 h5 hclk0 (by decide),
    hdetached hlog1 h6 hclk1 (by decide)⟩
  have hhist : (s.publish ⟨.ckpt, .none⟩).hist 5 = [0] := h5
  rcases hmaster 5 hfreed 0 (by rw [hhist]; exact List.mem_singleton_self _)
    (by
      rw [hlast, ltClock_iff]
      show (s.copies 0).wrtClk + 0 < 30
      omega) with h | ⟨e, he, ht⟩
  · exact h
  · have he' : s.curAct 5 = some e := he
    rw [hcur, Option.some_inj] at he'
    subst he'
    rw [show ((s.publish ⟨.ckpt, .none⟩).entries 0).isTomb = false from htomb] at ht
    cases ht

/-- The thread 0 has looked for requests in `ts_thread_finish`, gets the request of a
checkpoint round, and leaves the live list without serving it.  It is in no list when the
zombies are reaped and when the barrier looks, and the checkpoint is published without
its version. -/
theorem ckpt_misses_finishing_thread : ∃ s : State ℕ ℕ, Reachable 0 (fun _ => 0) Run.any s ∧
    s.phase = .idle ∧ s.nvmLastCkpt = 30 ∧ s.hist 5 = [0] ∧ (s.copies 0).wrtClk = 20 ∧
    s.status 0 ≠ .detached ∧ s.curAct 5 = none ∧ s.masterWrt 5 = 0 := by
  have hd : (Run.exec (step 0) Run.any (initial fun _ => 0 : State ℕ ℕ)
      [.threadInit 0, .threadInit 1, .begin 0 10, .lock 0 5 .copy, .endTx 0 20 7, .finishStart 0,
        .finishOplog 0, .request ⟨.ckpt, .none⟩, .detect 30, .detected, .startTrigger, .trigger 0,
        .trigger 1, .endTrigger, .deregister 0, .reapLock, .endReap, .tvlogReclaim 1,
        .startBarrier, .publish, .zombinize 0]).map (fun s =>
        decide (s.phase = .idle ∧ s.nvmLastCkpt = 30 ∧ s.hist 5 = [0] ∧
          (s.copies 0).wrtClk = 20 ∧ s.status 0 ≠ .detached ∧ s.curAct 5 = none ∧
          s.masterWrt 5 = 0)) = some true := by
    decide +kernel
  exact Run.Reach.exists_of_exec (.init rfl) hd

end TimeStone.System
