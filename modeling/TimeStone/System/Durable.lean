/-
Committed operations stay durable.

A committed operation leaves its operational log in two ways: `oplog_reclaim` drops the
operations below the thread's copy of `__last_ckpt`, which is never ahead of the
persisted clock, and the teardown of a thread drops the whole log.  The teardown only
looks at the transient version log and the checkpoint log.  Best-effort rounds can drain
both of them when other threads supersede all versions of the thread, with no checkpoint
at all (`op_lost_at_teardown`).  Where a teardown finds the newest operation of the
thread below the persisted checkpoint, no operation is lost (`committed_ops_durable`).

* `TeardownCovered` — the condition on teardowns;
* `DurableInv` — the invariant.
-/
import TimeStone.System.Rules

namespace TimeStone.System

variable {α β : Type*} {B t : ℕ} {s s' : State α β}

/-- The newest operation of `t` is covered by the persisted checkpoint. -/
def State.Covered (s : State α β) (B t : ℕ) : Prop :=
  ∀ e ∈ (s.oplog t).getLast?, ltClock B e.wrtClk s.nvmLastCkpt

instance (s : State α β) (B t : ℕ) : Decidable (s.Covered B t) :=
  inferInstanceAs (Decidable (∀ e ∈ (s.oplog t).getLast?, _))

/-- The logs of a thread are destroyed only when its newest operation is covered. -/
def TeardownCovered (B : ℕ) (s : State α β) : Op α β → Prop
  | .zombinize t => s.LogsEmpty t → s.Covered B t
  | .threadFree t => s.LogsEmpty t → s.Covered B t
  | .reap t => (s.reapLogs B t).LogsEmpty t → s.Covered B t
  | _ => True

instance (B : ℕ) (s : State α β) (op : Op α β) : Decidable (TeardownCovered B s op) := by
  unfold TeardownCovered
  induction op using Op.casesOn <;> infer_instance

/-- The operation `e` is covered by the persisted checkpoint, or it is in an operational
log that is linked from the NVM root. -/
def State.Durable (s : State α β) (B : ℕ) (e : OpEntry β) : Prop :=
  ltClock B e.wrtClk s.nvmLastCkpt ∨ ∃ t ∈ s.tids, s.destroyed t = false ∧ e ∈ s.oplog t

instance [DecidableEq β] (s : State α β) (B : ℕ) (e : OpEntry β) : Decidable (s.Durable B e) :=
  inferInstanceAs (Decidable (_ ∨ ∃ t ∈ s.tids, _))

/-- The invariant of the operational logs. -/
structure DurableInv (B : ℕ) (s : State α β) : Prop where
  clks : ∀ t, (s.clks t).lastCkpt ≤ s.nvmLastCkpt
  qpClks : s.qpClks.lastCkpt ≤ s.nvmLastCkpt
  qp0 : s.nvmLastCkpt ≤ s.qpClks.qp0
  wait : ∀ clk, s.phase = .waiting clk → s.qpClks.qp0 ≤ correctQpClock B clk
  reg : ∀ t, s.life t ≠ .fresh → t ∈ s.tids
  live : ∀ t, s.InTx t → s.life t = .live
  linked : ∀ t, s.life t ≠ .zombie → s.life t ≠ .gone → s.destroyed t = false
  old : ∀ t, ∀ e ∈ s.oplog t, e.wrtClk ≤ s.lastClk
  tx : ∀ t, s.InTx t → ∀ e ∈ s.oplog t, e.wrtClk ≤ s.localClk t + B
  sorted : ∀ t, (s.oplog t).Pairwise fun e e' => e.wrtClk ≤ e'.wrtClk
  durable : ∀ e ∈ s.commits, s.Durable B e

/-- A state with the same operational logs and clocks. -/
structure SameOps (s s' : State α β) : Prop where
  oplog : s'.oplog = s.oplog
  destroyed : s'.destroyed = s.destroyed
  commits : s'.commits = s.commits
  nvmLastCkpt : s'.nvmLastCkpt = s.nvmLastCkpt
  lastClk : s'.lastClk = s.lastClk
  localClk : s'.localClk = s.localClk
  runCnt : s'.runCnt = s.runCnt
  tids : s'.tids = s.tids
  life : s'.life = s.life
  phase : s'.phase = s.phase
  qpClks : s'.qpClks.lastCkpt = s.qpClks.lastCkpt ∧ s'.qpClks.qp0 = s.qpClks.qp0
  clks : ∀ t, (s'.clks t).lastCkpt = (s.clks t).lastCkpt

theorem SameOps.refl (s : State α β) : SameOps s s :=
  ⟨rfl, rfl, rfl, rfl, rfl, rfl, rfl, rfl, rfl, rfl, ⟨rfl, rfl⟩, fun _ => rfl⟩

theorem Quiet.sameOps (h : Quiet s s') : SameOps s s' :=
  ⟨h.oplog, h.destroyed, h.commits, h.nvmLastCkpt, h.lastClk, h.localClk, h.runCnt, h.tids,
    h.life, h.phase, by rw [h.qpClks]; exact ⟨rfl, rfl⟩, fun t => (h.clks t).2.2⟩

theorem DurableInv.congr (h : DurableInv B s) (he : SameOps s s') : DurableInv B s' := by
  have htx : ∀ t, s'.InTx t ↔ s.InTx t := by
    intro t
    rw [State.InTx, State.InTx, he.runCnt]
  refine ⟨?_, ?_, ?_, ?_, ?_, ?_, ?_, ?_, ?_, ?_, ?_⟩
  · intro t
    rw [he.clks, he.nvmLastCkpt]
    exact h.clks t
  · rw [he.qpClks.1, he.nvmLastCkpt]
    exact h.qpClks
  · rw [he.qpClks.2, he.nvmLastCkpt]
    exact h.qp0
  · rw [he.phase, he.qpClks.2]
    exact h.wait
  · rw [he.life, he.tids]
    exact h.reg
  · intro t ht
    rw [he.life]
    exact h.live t ((htx t).mp ht)
  · rw [he.life, he.destroyed]
    exact h.linked
  · rw [he.oplog, he.lastClk]
    exact h.old
  · intro t ht
    rw [he.oplog, he.localClk]
    exact h.tx t ((htx t).mp ht)
  · rw [he.oplog]
    exact h.sorted
  · intro e hm
    rw [he.commits] at hm
    rw [State.Durable, he.nvmLastCkpt, he.destroyed, he.oplog, he.tids]
    exact h.durable e hm

/-! ### The steps -/

theorem sameOps_commitCopy (h : SameOps s s') (W k : ℕ) : SameOps s (s'.commitCopy t W k) := by
  unfold State.commitCopy
  split
  · exact { h with }
  · split <;> exact { h with }

/-- A transaction commits. -/
theorem durableInv_commit {W : ℕ} {info : β} (h : DurableInv B s) (ht : s.InTx t)
    (hgt : gtClock B W (s.localClk t + B)) :
    DurableInv B ((s.tvlogCommit t W info).stop t) := by
  have hsame : SameOps ((s.commitSet t W info).stop t) ((s.tvlogCommit t W info).stop t) := by
    have hcopies : SameOps (s.commitSet t W info) (s.tvlogCommit t W info) :=
      foldl_commitCopy_rule (P := SameOps (s.commitSet t W info))
        (fun _ k hs _ => sameOps_commitCopy hs W k) (SameOps.refl _)
    refine { hcopies with runCnt := ?_ }
    show Function.update _ t _ = Function.update _ t _
    rw [hcopies.runCnt]
  refine DurableInv.congr ?_ hsame
  have hlive := h.live t ht
  have hnotx : ∀ t', ((s.commitSet t W info).stop t).InTx t' → t' ≠ t ∧ s.InTx t' := by
    intro t' ht'
    change Function.update s.runCnt t (s.runCnt t + 1) t' % 2 = 1 at ht'
    by_cases he : t' = t
    · subst he
      rw [Function.update_self] at ht'
      change s.runCnt t' % 2 = 1 at ht
      omega
    · rw [Function.update_of_ne he] at ht'
      exact ⟨he, ht'⟩
  have holog : ∀ t', ((s.commitSet t W info).stop t).oplog t' =
      if t' = t then s.oplog t ++ [⟨s.localClk t, W, info⟩] else s.oplog t' := by
    intro t'
    show Function.update s.oplog t _ t' = _
    by_cases he : t' = t
    · rw [if_pos he, he, Function.update_self]
    · rw [if_neg he, Function.update_of_ne he]
  -- operations of the thread that are older than its transaction
  have hold : ∀ e ∈ s.oplog t, e.wrtClk ≤ W := by
    intro e he
    have := h.tx t ht e he
    rw [gtClock_iff] at hgt
    omega
  refine ⟨h.clks, h.qpClks, h.qp0, h.wait, h.reg, fun t' ht' => h.live t' (hnotx t' ht').2, h.linked, ?_, ?_, ?_, ?_⟩
  · intro t' e he
    rw [holog] at he
    show e.wrtClk ≤ max s.lastClk W
    split at he
    · rcases List.mem_append.mp he with he | he
      · exact le_trans (hold e he) (le_max_right _ _)
      · rw [List.mem_singleton.mp he]
        exact le_max_right _ _
    · exact le_trans (h.old t' e he) (le_max_left _ _)
  · intro t' ht' e he
    obtain ⟨hne, ht'⟩ := hnotx t' ht'
    rw [holog, if_neg hne] at he
    exact h.tx t' ht' e he
  · intro t'
    rw [holog]
    split
    · refine List.pairwise_append.mpr ⟨h.sorted t, List.pairwise_singleton _ _, ?_⟩
      intro e he e' he'
      rw [List.mem_singleton.mp he']
      exact hold e he
    · exact h.sorted t'
  · intro e he
    have hkeep : ∀ t', ∀ e ∈ s.oplog t', e ∈ ((s.commitSet t W info).stop t).oplog t' := by
      intro t' e he
      rw [holog]
      split
      · rename_i heq
        exact List.mem_append_left _ (heq ▸ he)
      · exact he
    rcases List.mem_cons.mp he with rfl | he
    · refine Or.inr ⟨t, h.reg t (by rw [hlive]; simp), ?_, ?_⟩
      · exact h.linked t (by rw [hlive]; simp) (by rw [hlive]; simp)
      · rw [holog, if_pos rfl]
        exact List.mem_append_right _ (List.mem_singleton_self _)
    · exact (h.durable e he).imp_right fun ⟨t', h0, h1, h2⟩ => ⟨t', h0, h1, hkeep t' e h2⟩

theorem durableInv_oplogReclaim (h : DurableInv B s) (t : ℕ) : DurableInv B (s.oplogReclaim B t) := by
  have hsub : ∀ t', ((s.oplogReclaim B t).oplog t').Sublist (s.oplog t') := by
    intro t'
    show (Function.update s.oplog t _ t').Sublist _
    by_cases he : t' = t
    · rw [he, Function.update_self]
      exact List.dropWhile_sublist _
    · rw [Function.update_of_ne he]
  refine { h with
    old := fun t' e he => h.old t' e ((hsub t').subset he)
    tx := fun t' ht' e he => h.tx t' ht' e ((hsub t').subset he)
    sorted := fun t' => (h.sorted t').sublist (hsub t')
    durable := fun e he => ?_ }
  rcases h.durable e he with hlt | ⟨t', h0, h1, h2⟩
  · exact Or.inl hlt
  by_cases heq : t' = t
  · subst heq
    rw [← List.takeWhile_append_dropWhile (p := fun e =>
      decide (ltClock B e.wrtClk (s.clks t').lastCkpt)) (l := s.oplog t')] at h2
    rcases List.mem_append.mp h2 with h2 | h2
    · -- a dropped operation is below a clock that is not ahead of the persisted one
      left
      have hlt : ltClock B e.wrtClk (s.clks t').lastCkpt := by
        simpa using List.mem_takeWhile_imp h2
      have hle := h.clks t'
      show ltClock B e.wrtClk s.nvmLastCkpt
      rw [ltClock_iff] at *
      omega
    · refine Or.inr ⟨t', h0, h1, ?_⟩
      show e ∈ Function.update s.oplog t' _ t'
      rw [Function.update_self]
      exact h2
  · refine Or.inr ⟨t', h0, h1, ?_⟩
    show e ∈ Function.update s.oplog t _ t'
    rw [Function.update_of_ne heq]
    exact h2

/-- The logs of a thread whose newest operation is covered are destroyed. -/
theorem durableInv_destroyLogs {life : ℕ → Life} (h : DurableInv B s) (hc : s.Covered B t)
    (htx : ¬ s.InTx t) (hfresh : s.life t ≠ .fresh) (hne : ∀ t' ≠ t, life t' = s.life t')
    (ht : life t = .zombie ∨ life t = .gone) :
    DurableInv B { s.destroyLogs B t with life := life } := by
  have holog : ∀ t', ({ s.destroyLogs B t with life := life } : State α β).oplog t' =
      if t' = t then [] else s.oplog t' := by
    intro t'
    show Function.update s.oplog t [] t' = _
    by_cases he : t' = t
    · rw [if_pos he, he, Function.update_self]
    · rw [if_neg he, Function.update_of_ne he]
  have hsub : ∀ t', (({ s.destroyLogs B t with life := life } : State α β).oplog t').Sublist
      (s.oplog t') := by
    intro t'
    rw [holog]
    split
    · exact List.nil_sublist _
    · exact List.Sublist.refl _
  refine ⟨h.clks, h.qpClks, h.qp0, h.wait, ?_, ?_, ?_, fun t' e he => h.old t' e ((hsub t').subset he),
    fun t' ht' e he => h.tx t' ht' e ((hsub t').subset he),
    fun t' => (h.sorted t').sublist (hsub t'), ?_⟩
  · intro t' hf
    refine h.reg t' ?_
    by_cases he : t' = t
    · rw [he]
      exact hfresh
    · rw [← hne t' he]
      exact hf
  · intro t' ht'
    have hne' : t' ≠ t := by
      rintro rfl
      exact htx ht'
    exact (hne t' hne').trans (h.live t' ht')
  · intro t' h1 h2
    have hne' : t' ≠ t := by
      rintro rfl
      exact ht.elim h1 h2
    show Function.update s.destroyed t true t' = false
    rw [Function.update_of_ne hne']
    exact h.linked t' (by rw [← hne t' hne']; exact h1) (by rw [← hne t' hne']; exact h2)
  · intro e he
    rcases h.durable e he with hlt | ⟨t', h0, h1, h2⟩
    · exact Or.inl hlt
    by_cases heq : t' = t
    · -- the log is sorted, so the newest operation speaks for all
      subst heq
      left
      obtain ⟨l, hl⟩ : ∃ l, (s.oplog t').getLast? = some l := by
        cases hlog : (s.oplog t').getLast? with
        | none =>
          rw [List.getLast?_eq_none_iff.mp hlog] at h2
          cases h2
        | some l => exact ⟨l, rfl⟩
      have hlt := hc l hl
      obtain ⟨pre, hpre⟩ := List.getLast?_eq_some_iff.mp hl
      have hle : e.wrtClk ≤ l.wrtClk := by
        have hs := h.sorted t'
        rw [hpre] at h2 hs
        rcases List.mem_append.mp h2 with h2 | h2
        · exact (List.pairwise_append.mp hs).2.2 e h2 l (List.mem_singleton_self _)
        · exact le_of_eq (congrArg _ (List.mem_singleton.mp h2))
      rw [ltClock_iff] at hlt
      show ltClock B e.wrtClk s.nvmLastCkpt
      rw [ltClock_iff]
      omega
    · refine Or.inr ⟨t', h0, ?_, ?_⟩
      · show Function.update s.destroyed t true t' = false
        rw [Function.update_of_ne heq]
        exact h1
      · rw [holog, if_neg heq]
        exact h2

/-- A thread moves on in its life without losing its logs. -/
theorem durableInv_life {l : Life} (h : DurableInv B s) (htx : ¬ s.InTx t) (hreg : t ∈ s.tids)
    (hl : l = .zombie ∨ l = .gone ∨ s.life t ≠ .zombie ∧ s.life t ≠ .gone) :
    DurableInv B { s with life := Function.update s.life t l } := by
  refine { h with
    reg := fun t' hf => ?_, live := fun t' ht' => ?_, linked := fun t' h1 h2 => ?_ }
  · by_cases he : t' = t
    · rw [he]
      exact hreg
    · change Function.update s.life t l t' ≠ _ at hf
      rw [Function.update_of_ne he] at hf
      exact h.reg t' hf
  · have hne : t' ≠ t := by
      rintro rfl
      exact htx ht'
    show Function.update s.life t l t' = _
    rw [Function.update_of_ne hne]
    exact h.live t' ht'
  · change Function.update s.life t l t' ≠ _ at h1
    change Function.update s.life t l t' ≠ _ at h2
    by_cases he : t' = t
    · subst he
      rw [Function.update_self] at h1 h2
      rcases hl with hl | hl | hl
      · exact absurd hl h1
      · exact absurd hl h2
      · exact h.linked t' hl.1 hl.2
    · rw [Function.update_of_ne he] at h1 h2
      exact h.linked t' h1 h2

/-- A thread gets the clocks of the QP thread. -/
theorem durableInv_clks {c : SysClks} (h : DurableInv B s) (hc : c.lastCkpt ≤ s.nvmLastCkpt) :
    DurableInv B { s with clks := Function.update s.clks t c } := by
  refine { h with clks := fun t' => ?_ }
  show (Function.update s.clks t c t').lastCkpt ≤ _
  by_cases he : t' = t
  · rw [he, Function.update_self]
    exact hc
  · rw [Function.update_of_ne he]
    exact h.clks t'

theorem durableInv_start {v : ℕ} (h : DurableInv B s) (hl : s.life t = .live)
    (hv : s.Reading B v) : DurableInv B (s.start t v) := by
  refine { h with live := fun t' ht' => ?_, old := ?_, tx := fun t' ht' e he => ?_ }
  · by_cases he : t' = t
    · rw [he]
      exact hl
    · change Function.update s.runCnt t _ t' % 2 = 1 at ht'
      rw [Function.update_of_ne he] at ht'
      exact h.live t' ht'
  · intro t' e he
    exact le_trans (h.old t' e he) (le_max_left _ _)
  · show e.wrtClk ≤ Function.update s.localClk t v t' + B
    by_cases heq : t' = t
    · rw [heq, Function.update_self]
      exact le_trans (h.old t' e he) hv.1
    · rw [Function.update_of_ne heq]
      change Function.update s.runCnt t _ t' % 2 = 1 at ht'
      rw [Function.update_of_ne heq] at ht'
      exact h.tx t' ht' e he

theorem durableInv_stop (h : DurableInv B s) (ht : s.InTx t) : DurableInv B (s.stop t) := by
  have hnotx : ∀ t', (s.stop t).InTx t' → s.InTx t' := by
    intro t' ht'
    change Function.update s.runCnt t (s.runCnt t + 1) t' % 2 = 1 at ht'
    by_cases he : t' = t
    · rw [he]
      exact ht
    · rw [Function.update_of_ne he] at ht'
      exact ht'
  exact { h with
    live := fun t' ht' => h.live t' (hnotx t' ht')
    tx := fun t' ht' => h.tx t' (hnotx t' ht') }

theorem durableInv_reap (h : DurableInv B s) (hl : s.life t = .zombie)
    (hc : (s.reapLogs B t).LogsEmpty t → s.Covered B t) : DurableInv B (s.reapThread B t) := by
  have htx : ¬ s.InTx t := fun ht => by
    have := h.live t ht
    rw [hl] at this
    cases this
  -- the reclamations keep the operational logs and the clocks
  have hq : DurableInv B (s.reapLogs B t) ∧ (s.reapLogs B t).oplog = s.oplog ∧
      (s.reapLogs B t).nvmLastCkpt = s.nvmLastCkpt ∧ (s.reapLogs B t).life = s.life ∧
      (s.reapLogs B t).runCnt = s.runCnt := by
    refine reapLogs_rule (P := fun s' => DurableInv B s' ∧ s'.oplog = s.oplog ∧
      s'.nvmLastCkpt = s.nvmLastCkpt ∧ s'.life = s.life ∧ s'.runCnt = s.runCnt) ?_ ?_ ?_ ?_
    · exact ⟨durableInv_clks h h.qpClks, rfl, rfl, rfl, rfl⟩
    · rintro s' r ⟨h', h1, h2, h3, h4⟩
      exact ⟨{ h' with }, h1, h2, h3, h4⟩
    · rintro s' ⟨h', h1, h2, h3, h4⟩ -
      have hq := quiet_tvlogReclaim (B := B) s' t
      exact ⟨h'.congr hq.sameOps, hq.oplog.trans h1, hq.nvmLastCkpt.trans h2,
        hq.life.trans h3, hq.runCnt.trans h4⟩
    · rintro s' ⟨h', h1, h2, h3, h4⟩
      have hq := quiet_ckptlogReclaim (B := B) s' t 0
      exact ⟨h'.congr hq.sameOps, hq.oplog.trans h1, hq.nvmLastCkpt.trans h2,
        hq.life.trans h3, hq.runCnt.trans h4⟩
  obtain ⟨h', h1, h2, h3, h4⟩ := hq
  have hc' : (s.reapLogs B t).LogsEmpty t → (s.reapLogs B t).Covered B t := by
    intro he
    rw [State.Covered, h1, h2]
    exact hc he
  have htx' : ¬ (s.reapLogs B t).InTx t := by
    rw [State.InTx, h4]
    exact htx
  have hfresh' : (s.reapLogs B t).life t ≠ .fresh := by
    rw [h3, hl]
    simp
  refine reapThread_rule h' (fun he => ?_) fun he => ?_
  · exact durableInv_destroyLogs h' (hc' he) htx' hfresh' (fun _ _ => rfl)
      (Or.inl ((congrFun h3 t).trans hl))
  · exact durableInv_destroyLogs h' (hc' he) htx' hfresh' (fun t' hne => Function.update_of_ne hne _ _)
      (Or.inr (Function.update_self _ _ _))

theorem durableInv_publish {r : Reclaim} (h : DurableInv B s) : DurableInv B (s.publish r) := by
  unfold State.publish
  split
  · refine { h with
      clks := fun t => le_trans (h.clks t) h.qp0
      qpClks := le_refl _
      qp0 := le_refl _
      wait := by simp
      durable := fun e he => (h.durable e he).imp_left fun hlt => ?_ }
    have := h.qp0
    show ltClock B e.wrtClk s.qpClks.qp0
    rw [ltClock_iff] at *
    omega
  · exact { h with wait := by simp }

theorem durableInv_step {op : Op α β} (h : DurableInv B s) (hok : TeardownCovered B s op)
    (hs : step B s op = some s') : DurableInv B s' := by
  have hnotx : ∀ t, s.life t ≠ .live → ¬ s.InTx t := fun t hl ht => hl (h.live t ht)
  cases Step.of_step hs with
  | threadInit t hf =>
    have hreg : DurableInv B { s with tids := t :: s.tids } := { h with
      reg := fun t' ht' => List.mem_cons_of_mem _ (h.reg t' ht')
      durable := fun e he => (h.durable e he).imp_right fun ⟨t', h0, h1⟩ =>
        ⟨t', List.mem_cons_of_mem _ h0, h1⟩ }
    have hl : DurableInv B { s with
        tids := t :: s.tids, life := Function.update s.life t .live } :=
      durableInv_life hreg (hnotx t (by rw [hf]; simp)) List.mem_cons_self
        (Or.inr (Or.inr (by simp [hf])))
    exact { durableInv_clks (t := t) (c := ⟨0, 0, 0, minVersion, maxVersion⟩) hl
      (Nat.zero_le _) with }
  | begin t v hl _ hv => exact durableInv_start h hl hv
  | endRead t v info ht => exact durableInv_stop h ht
  | endTx t v info ht _ hgt => exact durableInv_commit h ht hgt
  | abort t ht => exact durableInv_stop (s := s.unlockAbort t) { h with } ht
  | tvlogReclaim t => exact h.congr (quiet_tvlogReclaim s t).sameOps
  | ckptlogReclaim t wb => exact h.congr (quiet_ckptlogReclaim s t wb).sameOps
  | oplogReclaim t => exact durableInv_oplogReclaim h t
  | finishStart t hl ht =>
    exact durableInv_life h ht (h.reg t (by rw [hl]; simp)) (Or.inr (Or.inr (by simp [hl])))
  | finishOplog t hl =>
    exact durableInv_life (durableInv_oplogReclaim h t) (hnotx t (by rw [hl]; simp))
      (h.reg t (by rw [hl]; simp)) (Or.inr (Or.inr (by simp [State.oplogReclaim, hl])))
  | deregister t hl =>
    exact { durableInv_life (l := .limbo) h (hnotx t (by rw [hl]; simp))
      (h.reg t (by rw [hl]; simp)) (Or.inr (Or.inr (by simp [hl]))) with }
  | zombinize t hl =>
    have htx := hnotx t (by rw [hl]; simp)
    unfold State.zombinize
    split
    · rename_i he
      exact durableInv_destroyLogs h (hok he) htx (by rw [hl]; simp)
        (fun t' hne => Function.update_of_ne hne _ _) (Or.inr (Function.update_self _ _ _))
    · exact durableInv_life h htx (h.reg t (by rw [hl]; simp)) (Or.inl rfl)
  | threadFree t hl =>
    have htx : ¬ s.InTx t := hnotx t (by rcases hl with hl | hl <;> rw [hl] <;> simp)
    unfold State.threadFree
    dsimp only
    split
    · rename_i he
      exact durableInv_destroyLogs (s := { s with dead := Function.update s.dead t true })
        { h with } (hok he) htx (by rcases hl with hl | hl <;> simp [hl]) (fun _ _ => rfl) hl
    · exact { h with }
  | detect v _ _ hlt =>
    refine { h with old := fun t e he => le_trans (h.old t e he) (le_max_left _ _), wait := ?_ }
    intro clk hclk
    cases hclk
    rw [ltClock_iff] at hlt
    show s.qpClks.qp0 ≤ _
    omega
  | detected clk hp =>
    exact { h with
      qp0 := le_trans h.qp0 (h.wait clk hp)
      wait := fun clk' hclk' => (by cases hclk') }
  | trigger t r done => exact { durableInv_clks (t := t) h h.qpClks with wait := by simp }
  | reap t r done _ hl => exact { durableInv_reap h hl hok with wait := by simp }
  | publish r =>
    exact durableInv_publish h
  | deref t o => exact { h with }
  | lock t o kind => exact { h with }
  | write t k a => exact { h with }
  | free t o => exact { h with }
  | request r => exact { h with }
  | cleanup t clk => exact { h with }
  | _ => exact { h with wait := by simp }

theorem durableInv_initial (org : ℕ → α) : DurableInv B (initial org : State α β) := by
  refine ⟨fun _ => le_refl _, le_refl _, le_refl _, by simp [initial], ?_, ?_, ?_, ?_, ?_, ?_, ?_⟩
  · intro t ht
    exact absurd rfl ht
  · intro t ht
    cases ht
  · intro t _ _
    rfl
  · intro t e he
    cases he
  · intro t ht
    cases ht
  · intro t
    exact List.Pairwise.nil
  · intro e he
    cases he

/-- In every run whose teardowns meet the condition, every committed operation is below
the persisted checkpoint, or in an operational log that is linked from the NVM root. -/
theorem committed_ops_durable (org : ℕ → α) (hr : Reachable B org (TeardownCovered B) s)
    {e : OpEntry β} (he : e ∈ s.commits) : s.Durable B e := by
  have hi : DurableInv B s := Run.Reach.invariant
    (fun _ h0 => h0 ▸ durableInv_initial org) (fun _ _ _ h hok hs => durableInv_step h hok hs) hr
  exact hi.durable e he

/-- The thread 0 writes an object, and two checkpoints later ends with nothing left in its
logs. -/
theorem committed_ops_durable_ckpt :
    ∃ s : State ℕ ℕ, Reachable 0 (fun _ => 0) (TeardownCovered 0) s ∧
      s.commits = [⟨10, 20, 7⟩] ∧ s.destroyed 0 = true ∧ s.Durable 0 ⟨10, 20, 7⟩ := by
  have hd : (Run.exec (step 0) (TeardownCovered 0) (initial fun _ => 0 : State ℕ ℕ)
      ([.threadInit 0, .threadInit 1, .begin 0 10, .lock 0 5 .copy, .endTx 0 20 7] ++
        roundOfTwo 30 ⟨.ckpt, .none⟩ ++ roundOfTwo 40 ⟨.ckpt, .none⟩ ++
        roundOfTwo 50 ⟨.none, .writebackAll⟩ ++ roundOfTwo 60 ⟨.none, .writebackAll⟩ ++
        [.finishStart 0, .finishOplog 0, .deregister 0, .zombinize 0])).map (fun s =>
        (s.commits, s.destroyed 0)) = some ([⟨10, 20, 7⟩], true) := by
    decide +kernel
  rw [Option.map_eq_some_iff] at hd
  obtain ⟨s, hs, heq⟩ := hd
  obtain ⟨hc, hdes⟩ : s.commits = [⟨10, 20, 7⟩] ∧ s.destroyed 0 = true := by
    simpa using heq
  have hr : Reachable 0 (fun _ => 0) (TeardownCovered 0) s := .of_exec (.init rfl) hs
  exact ⟨s, hr, hc, hdes, committed_ops_durable _ hr (by rw [hc]; simp)⟩

/-- The thread 1 overwrites the object that the thread 0 wrote.  Two best-effort rounds
drain the log of the thread 0, which ends, and its operation is gone. -/
theorem op_lost_at_teardown :
    ∃ s : State ℕ ℕ, Reachable 0 (fun _ => 0) Run.any s ∧
      ⟨10, 20, 7⟩ ∈ s.commits ∧ ¬ s.Durable 0 ⟨10, 20, 7⟩ := by
  have hd : (Run.exec (step 0) Run.any (initial fun _ => 0 : State ℕ ℕ)
      ([.threadInit 0, .threadInit 1, .begin 0 10, .lock 0 5 .copy, .endTx 0 20 7,
        .begin 1 30, .lock 1 5 .copy, .endTx 1 40 8] ++
        roundOfTwo 50 ⟨.bestEffort, .none⟩ ++ roundOfTwo 60 ⟨.bestEffort, .none⟩ ++
        [.finishStart 0, .finishOplog 0, .deregister 0, .zombinize 0])).map (fun s =>
        decide (⟨10, 20, 7⟩ ∈ s.commits ∧ ¬ s.Durable 0 ⟨10, 20, 7⟩)) = some true := by
    decide +kernel
  exact Run.Reach.exists_of_exec (.init rfl) hd

end TimeStone.System
