/-
The freeing frontier `__min_ckpt_reclaimed`.

In every round that reclaims checkpoint logs, `ckptlog_reclaim_x` records the clock of the
oldest entry that it leaves in the log of its thread, and `qp_reclaim_barrier` takes the
minimum of these clocks.  It takes the minimum with the value of the last barrier as
well, so the frontier never advances (`frontier_stays_behind`).

`Recorded` adds to the state what was recorded in the current round, and the minimum of the
last round that reclaimed checkpoint logs.

* `Recorded.Follows` — the barrier has set the frontier to the minimum that was recorded;
* `Recorded.FrontierOk` — the frontier was not below that minimum before the barrier, and
  a round in which nothing was recorded has left the checkpoint logs empty;
* `RoundInv` — what has become of the clocks and the checkpoint log of a thread that has
  got its request;
* `follows_iff` — the frontier follows reclamation exactly under this condition.
-/
import TimeStone.System.Freeing

namespace TimeStone.System

variable {α β : Type*} {B t : ℕ} {s s' : State α β} {c : ℕ → Option ℕ}

/-- The system with what its reclamations have recorded. -/
structure Recorded (α β : Type*) where
  sys : State α β
  oldest : ℕ → Option ℕ
  lastMin : ℕ

/-- Nothing is recorded. -/
def Recorded.start (org : ℕ → α) : Recorded α β := ⟨initial org, fun _ => none, maxVersion⟩

/-- What `ckptlog_reclaim_x` records in a step from `s`: the clock of the entry that the
first loop has stopped at, if there is one.  A request begins a new round for its thread. -/
def State.recordOldest (s : State α β) (c : ℕ → Option ℕ) : Op α β → ℕ → Option ℕ
  | .threadInit t => Function.update c t none
  | .trigger t => Function.update c t none
  | .ckptlogReclaim t _ =>
    if (s.req t).ckptlog = .none then c
    else Function.update c t ((s.ckNew t).head?.map fun e => (s.entries e).ckptSClk)
  | _ => c

/-- The smallest clock that was recorded in this round for a live thread. -/
def State.recordedMin (s : State α β) (c : ℕ → Option ℕ) : ℕ :=
  s.tids.foldl (fun m t => if s.InLive t then min m ((c t).getD maxVersion) else m) maxVersion

/-- The round has requested the reclamation of the checkpoint logs. -/
def Phase.ReclaimsCkptlogs (p : Phase) : Prop := ∃ r ∈ p.active, r.ckptlog ≠ .none

instance (p : Phase) : Decidable p.ReclaimsCkptlogs :=
  inferInstanceAs (Decidable (∃ r ∈ p.active, _))

namespace Recorded

/-- One step, with what it records. -/
def step (B : ℕ) (f : Recorded α β) (op : Op α β) : Option (Recorded α β) :=
  (System.step B f.sys op).map fun s' =>
    { sys := s'
      oldest := f.sys.recordOldest f.oldest op
      lastMin := match op with
        | .startBarrier =>
          if f.sys.phase.ReclaimsCkptlogs then f.sys.recordedMin f.oldest else f.lastMin
        | _ => f.lastMin }

/-- The states of runs that keep to the condition `ok`. -/
abbrev Reachable (B : ℕ) (org : ℕ → α) (ok : Recorded α β → Op α β → Prop) :
    Recorded α β → Prop :=
  Run.Reach (· = start org) (step B) ok

/-- The clock that `qp_cleanup_ckptlogs` passes to `ckptlog_cleanup`. -/
def untilClk (B : ℕ) (f : Recorded α β) : ℕ := correctQpClock B f.sys.qpClks.minCkptReclaimed

/-- That clock is not beyond an unreclaimed entry of a live thread. -/
def NotBeyond (B : ℕ) (f : Recorded α β) : Prop :=
  ∀ t, f.sys.InLive t → ∀ e ∈ f.sys.ckptlog t, f.untilClk B ≤ (f.sys.entries e).ckptSClk

/-- What a barrier from `f` to `f'` should do: the frontier is the minimum that was
recorded; it advances when the oldest entries of all threads have advanced; and it is not
beyond an unreclaimed entry. -/
def Follows (B : ℕ) (f f' : Recorded α β) : Prop :=
  f'.sys.qpClks.minCkptReclaimed = f.sys.recordedMin f.oldest ∧
    (f.lastMin < f.sys.recordedMin f.oldest → f.untilClk B < f'.untilClk B) ∧ f'.NotBeyond B

/-- The frontier before the barrier is not below what was recorded, and if nothing was
recorded, then no checkpoint log has got an entry since. -/
def FrontierOk (f : Recorded α β) : Prop :=
  f.sys.recordedMin f.oldest ≤ f.sys.qpClks.minCkptReclaimed ∧
    ((∃ t ∈ f.sys.tids, f.sys.InLive t ∧ f.sys.ckptlog t ≠ []) →
      ∃ t ∈ f.sys.tids, f.sys.InLive t ∧ f.oldest t ≠ none)

instance (f : Recorded α β) : Decidable f.FrontierOk :=
  inferInstanceAs (Decidable (_ ∧ ((∃ t ∈ _, _) → ∃ t ∈ _, _)))

/-- The condition on the barriers of the rounds that reclaim checkpoint logs. -/
def BarriersOk (f : Recorded α β) (op : Op α β) : Prop :=
  match op with
  | .startBarrier => f.sys.phase.ReclaimsCkptlogs → f.FrontierOk
  | _ => True

instance (f : Recorded α β) (op : Op α β) : Decidable (f.BarriersOk op) := by
  unfold BarriersOk
  induction op using Op.casesOn <;> infer_instance

end Recorded

/-! ### What reclamation does to the checkpoint logs -/

/-- The logs of the threads other than `t`, and the entries there are, stay as they are. -/
structure OthersKept (t : ℕ) (s s' : State α β) : Prop where
  num : s.numEntries ≤ s'.numEntries
  entries : ∀ e < s.numEntries, s'.entries e = s.entries e
  logs : ∀ t' ≠ t, s'.ckptlog t' = s.ckptlog t'
  clks : ∀ t' ≠ t, s'.clks t' = s.clks t'

/-- What `tvlog_reclaim` does to the checkpoint log of `t`. -/
structure Enqueues (t : ℕ) (s s' : State α β) : Prop extends OthersKept t s s' where
  self : s'.clks t = s.clks t
  new : ∀ e ∈ s'.ckptlog t, e ∈ s.ckptlog t ∨
    s.numEntries ≤ e ∧ e < s'.numEntries ∧ (s'.entries e).ckptSClk = (s.clks t).qp0

theorem OthersKept.refl (t : ℕ) (s : State α β) : OthersKept t s s :=
  ⟨le_refl _, fun _ _ => rfl, fun _ _ => rfl, fun _ _ => rfl⟩

theorem OthersKept.trans {s₁ s₂ s₃ : State α β} (h : OthersKept t s₁ s₂)
    (h' : OthersKept t s₂ s₃) : OthersKept t s₁ s₃ where
  num := le_trans h.num h'.num
  entries := fun e he => (h'.entries e (lt_of_lt_of_le he h.num)).trans (h.entries e he)
  logs := fun t' hne => (h'.logs t' hne).trans (h.logs t' hne)
  clks := fun t' hne => (h'.clks t' hne).trans (h.clks t' hne)

/-- An entry with the clock of the round is enqueued. -/
theorem Enqueues.enq (h : Enqueues t s s') {x : CkptEntry α}
    (hx : x.ckptSClk = (s'.clks t).qp0) : Enqueues t s (s'.ckptlogEnq t x) := by
  have hnum : (s'.ckptlogEnq t x).numEntries = s'.numEntries + 1 := rfl
  refine ⟨⟨?_, fun e he => ?_, fun t' hne => ?_, h.clks⟩, h.self, fun e he => ?_⟩
  · rw [hnum]
    exact le_trans h.num (Nat.le_succ _)
  · have hlt := lt_of_lt_of_le he h.num
    exact (Function.update_of_ne (by omega) _ _).trans (h.entries e he)
  · rw [ckptlog_enq, if_neg hne]
    exact h.logs t' hne
  · rw [ckptlog_enq, if_pos rfl, List.mem_append, List.mem_singleton] at he
    rcases he with he | rfl
    · refine (h.new e he).imp_right fun ⟨h1, h2, h3⟩ => ⟨h1, by omega, ?_⟩
      rw [← h3]
      exact congrArg CkptEntry.ckptSClk (Function.update_of_ne (by omega) _ _)
    · refine Or.inr ⟨h.num, by omega, ?_⟩
      show (Function.update s'.entries s'.numEntries x s'.numEntries).ckptSClk = _
      rw [Function.update_self, hx, h.self]

theorem enqueues_markTombstone (h : Enqueues t s s') (wrt k : ℕ) :
    Enqueues t s (s'.markTombstone t wrt k) := by
  unfold State.markTombstone
  dsimp only
  split
  · exact h
  · split
    · exact { h.enq (x := ⟨(s'.copies k).obj, wrt, (s'.clks t).qp0, true, none⟩) rfl with }
    · exact { h with }

theorem enqueues_tvlogReclaim (s : State α β) (t : ℕ) : Enqueues t s (s.tvlogReclaim B t) := by
  refine tvlogReclaim_rule (P := Enqueues t s) ?_ ?_ ?_ ?_ ?_ ?_
    ⟨OthersKept.refl t s, rfl, fun _ => Or.inl⟩
  · exact fun s₁ w _ k h₁ _ _ _ => enqueues_markTombstone h₁ w.wrtClk k
  · exact fun s₁ _ _ h₁ _ => { h₁ with }
  · exact fun s₁ h₁ => { h₁ with }
  · exact fun s₁ w _ k h₁ _ _ _ _ => { h₁.enq (x := ⟨(s₁.copies k).obj, w.wrtClk,
      (s₁.clks t).qp0, false, (s₁.copies k).content⟩) rfl with }
  · exact fun s₁ _ _ h₁ _ _ _ => { h₁ with }
  · exact fun s₁ h₁ _ => { h₁ with }

/-- What `ckptlog_reclaim_x` does to the checkpoint log of `t`: the entries below `prev_head`
are gone, and the clock of the next one is recorded. -/
structure Records (t : ℕ) (s s' : State α β) : Prop extends OthersKept t s s' where
  log : s'.ckptlog t = s.ckNew t
  clk : (s'.clks t).minCkptReclaimed =
    ((s.ckNew t).head?.map fun e => (s.entries e).ckptSClk).getD (s.clks t).minCkptReclaimed

theorem records_noteMinCkpt {s₁ : State α β} (hclks : s₁.clks = s.clks)
    (hentries : s₁.entries = s.entries) (hnew : s₁.ckNew t = s.ckNew t)
    (hkept : OthersKept t s s₁) (hnil : s₁.ckOld t = []) : Records t s (s₁.noteMinCkpt t) := by
  have hlog : s₁.ckptlog t = s.ckNew t := by
    rw [State.ckptlog, hnil, List.nil_append, hnew]
  unfold State.noteMinCkpt
  rw [hnew]
  split
  · rename_i hnone
    refine { hkept with log := hlog, clk := ?_ }
    rw [hclks, hnone]
    rfl
  · rename_i e rest hcons
    refine { hkept with clks := fun t' hne => ?_, log := hlog, clk := ?_ }
    · exact (Function.update_of_ne hne _ _).trans (hkept.clks t' hne)
    · show (Function.update s₁.clks t _ t).minCkptReclaimed = _
      rw [Function.update_self, hcons, hentries]
      rfl

/-- The second loop moves entries within the log. -/
theorem Records.pass (h : Records t s s') {e : ℕ} {rest : List ℕ} (he : s'.ckNew t = e :: rest) :
    Records t s (s'.passEntry t e rest) :=
  { h with
    log := (ckptlog_passEntry he t).trans h.log
    logs := fun t' hne => (ckptlog_passEntry he t').trans (h.logs t' hne) }

theorem records_ckptlogReclaim {wb : ℕ} (hn : (s.req t).ckptlog ≠ .none) :
    Records t s (s.ckptlogReclaim B t wb) := by
  have hx : ∀ budget, Records t s (s.ckptlogReclaimX B t budget) := by
    intro budget
    -- `P`: the first loop has only dropped entries below `prev_head`
    refine ckptlogReclaimX_phases (P := fun s₁ => s₁.clks = s.clks ∧ s₁.entries = s.entries ∧
      s₁.ckNew t = s.ckNew t ∧ OthersKept t s s₁) (Q := Records t s) ?_ ?_ ?_ ?_ ?_
      ⟨rfl, rfl, rfl, OthersKept.refl t s⟩
    · rintro s₁ e rest ⟨h1, h2, h3, h4⟩ he
      refine ⟨h1, h2, h3, { h4 with logs := fun t' hne => ?_ }⟩
      rw [← h4.logs t' hne, ckptlog_dropEntry he t', if_neg hne]
    · exact fun s₁ ⟨h1, h2, h3, h4⟩ hnil => records_noteMinCkpt h1 h2 h3 h4 hnil
    · exact fun s₂ e rest h₂ he _ _ _ =>
        Records.pass (show Records t s (s₂.writeback e) from { h₂ with }) he
    · exact fun s₂ e rest h₂ he _ _ => h₂.pass he
    · exact fun s₂ h₂ => { h₂ with }
  unfold State.ckptlogReclaim
  split
  · contradiction
  · exact hx _
  · exact hx _
  · exact hx _

/-- Reaping a zombie leaves the logs of the other threads alone. -/
theorem othersKept_reapThread (s : State α β) (B t : ℕ) : OthersKept t s (s.reapThread B t) := by
  have hlogs : OthersKept t s (s.reapLogs B t) := by
    refine reapLogs_rule (P := OthersKept t s) ?_ (fun s₁ r h₁ => { h₁ with }) ?_ ?_
    · exact { OthersKept.refl t s with clks := fun t' hne => Function.update_of_ne hne _ _ }
    · exact fun s₁ h₁ _ => h₁.trans (enqueues_tvlogReclaim s₁ t).toOthersKept
    · intro s₁ h₁
      by_cases hn : (s₁.req t).ckptlog = .none
      · rw [State.ckptlogReclaim, hn]
        exact h₁
      · exact h₁.trans (records_ckptlogReclaim hn).toOthersKept
  exact reapThread_rule (P := OthersKept t s) hlogs (fun _ => { hlogs with }) fun _ =>
    { hlogs with }

/-! ### The rounds -/

/-- A thread that has got the request of this round: what is recorded for it is the clock
that the barrier will find, and it is not beyond the entries in its log.  Where nothing is
recorded, the thread has the frontier of the QP thread, or is new, and once its log is
reclaimed it gets entries of this round only. -/
def Noted (s : State α β) (c : ℕ → Option ℕ) (t : ℕ) : Prop :=
  ((s.req t).ckptlog ≠ .none → c t = none) ∧
  (∀ v ∈ c t, (s.clks t).minCkptReclaimed = v ∧ v ≤ s.qpClks.qp0 ∧
    ∀ e ∈ s.ckptlog t, v ≤ (s.entries e).ckptSClk) ∧
  (c t = none → (s.clks t).minCkptReclaimed = s.qpClks.minCkptReclaimed ∨
    (s.clks t).minCkptReclaimed = maxVersion) ∧
  (c t = none → s.phase.ReclaimsCkptlogs → (s.req t).ckptlog = .none →
    ∀ e ∈ s.ckptlog t, s.qpClks.qp0 ≤ (s.entries e).ckptSClk)

/-- The invariant of the rounds. -/
structure RoundInv (s : State α β) (c : ℕ → Option ℕ) : Prop where
  max : s.qpClks.minCkptReclaimed ≤ maxVersion
  clk : s.qpClks.minCkptReclaimed = maxVersion ∨ s.qpClks.minCkptReclaimed ≤ s.qpClks.qp0
  pos : s.phase ≠ .idle → (∀ clk, s.phase ≠ .waiting clk) → 0 < s.qpClks.qp0
  trig : ∀ r done, s.phase = .trigger r done → ∀ t, s.InLive t → t ∉ done → s.req t = .none
  noted : ∀ t, s.InLive t → s.phase.Sent t → Noted s c t

/-- A step in which the log of `t` gets at most entries of this round. -/
theorem Noted.frame {c' : ℕ → Option ℕ} (h : Noted s c t) (hc : c' t = c t)
    (hphase : s'.phase.ReclaimsCkptlogs → s.phase.ReclaimsCkptlogs) (hq : s'.qpClks = s.qpClks)
    (hreq : (s'.req t).ckptlog = (s.req t).ckptlog)
    (hclk : (s'.clks t).minCkptReclaimed = (s.clks t).minCkptReclaimed)
    (hlog : ∀ e ∈ s'.ckptlog t, e ∈ s.ckptlog t ∧ s'.entries e = s.entries e ∨
      s.qpClks.qp0 ≤ (s'.entries e).ckptSClk) : Noted s' c' t := by
  obtain ⟨h1, h2, h3, h4⟩ := h
  rw [Noted, hc, hq, hreq, hclk]
  refine ⟨h1, fun v hv => ?_, h3, fun hn hp hr e he => ?_⟩
  · obtain ⟨h5, h6, h7⟩ := h2 v hv
    refine ⟨h5, h6, fun e he => ?_⟩
    rcases hlog e he with ⟨he, heq⟩ | hle
    · rw [heq]
      exact h7 e he
    · exact le_trans h6 hle
  · rcases hlog e he with ⟨he, heq⟩ | hle
    · rw [heq]
      exact h4 hn (hphase hp) hr e he
    · exact hle

/-- A step that does nothing to the log of a live thread `t'` and leaves its round alone. -/
theorem Noted.other {c' : ℕ → Option ℕ} {t' : ℕ} (h : Noted s c t') (hl : CkptLogs s)
    (hk : OthersKept t s s') (hne : t' ≠ t) (hc : c' t' = c t')
    (hphase : s'.phase.ReclaimsCkptlogs → s.phase.ReclaimsCkptlogs) (hq : s'.qpClks = s.qpClks)
    (hreq : s'.req t' = s.req t') : Noted s' c' t' := by
  refine h.frame hc hphase hq (by rw [hreq]) (by rw [hk.clks t' hne]) fun e he => ?_
  rw [hk.logs t' hne] at he
  exact Or.inl ⟨he, hk.entries e (hl.mem t' e he).1⟩

/-- Reclaiming a log keeps the invariant when it keeps it for every thread. -/
theorem RoundInv.quiet {c' : ℕ → Option ℕ} (h : RoundInv s c) (hq : Quiet s s')
    (hreq : ∀ t, s.req t = .none → s'.req t = .none)
    (hn : ∀ t, s.InLive t → s.phase.Sent t → Noted s' c' t) : RoundInv s' c' := by
  have hlive : ∀ {t}, s'.InLive t → s.InLive t := by
    intro t ht
    rw [State.InLive, hq.life] at ht
    exact ht
  refine ⟨?_, ?_, ?_, fun r done hp t ht hd => ?_, fun t ht hsent => ?_⟩
  · rw [hq.qpClks]
    exact h.max
  · rw [hq.qpClks]
    exact h.clk
  · rw [hq.qpClks, hq.phase]
    exact h.pos
  · rw [hq.phase] at hp
    exact hreq t (h.trig r done hp t (hlive ht) hd)
  · rw [hq.phase] at hsent
    exact hn t (hlive ht) hsent

theorem roundInv_tvlogReclaim (h : RoundInv s c) (hl : CkptLogs s) (hs : s.Synced t) :
    RoundInv (s.tvlogReclaim B t) c := by
  have hq := quiet_tvlogReclaim (B := B) s t
  have hreq := req_tvlogReclaim s B t
  have hk := enqueues_tvlogReclaim (B := B) s t
  refine h.quiet hq (fun t' hn => ?_) fun t' ht' hsent => ?_
  · rw [hreq]
    by_cases hne : t' = t
    · rw [hne, Function.update_self, ← hne, hn]
      rfl
    · rw [Function.update_of_ne hne]
      exact hn
  · have hn := h.noted t' ht' hsent
    by_cases hne : t' = t
    · subst hne
      refine hn.frame rfl (by rw [hq.phase]; exact id) hq.qpClks ?_ (by rw [hk.self]) fun e he => ?_
      · rw [hreq, Function.update_self]
      · rcases hk.new e he with he | ⟨-, -, he⟩
        · exact Or.inl ⟨he, hk.entries e (hl.mem t' e he).1⟩
        · exact Or.inr (by rw [he, hs.1])
    · refine hn.other hl hk.toOthersKept hne rfl (by rw [hq.phase]; exact id) hq.qpClks ?_
      rw [hreq, Function.update_of_ne hne]

/-- Reclaiming a checkpoint log records the clock of its oldest entry. -/
theorem noted_ckptlogReclaim {wb : ℕ} (h : Noted s c t) (hl : CkptLogs s)
    (hn : (s.req t).ckptlog ≠ .none) :
    Noted (s.ckptlogReclaim B t wb) (s.recordOldest c (.ckptlogReclaim t wb : Op α β)) t := by
  have hk : Records t s (s.ckptlogReclaim B t wb) := records_ckptlogReclaim hn
  have hq := quiet_ckptlogReclaim (B := B) s t wb
  have hc : s.recordOldest c (.ckptlogReclaim t wb : Op α β) t =
      (s.ckNew t).head?.map fun e => (s.entries e).ckptSClk := by
    rw [State.recordOldest, if_neg hn, Function.update_self]
  have hmem : ∀ e ∈ s.ckNew t, e < s.numEntries := fun e he =>
    (hl.mem t e (List.mem_append_right _ he)).1
  rw [Noted, hc, hk.log, hk.clk, hq.qpClks, req_ckptlogReclaim, Function.update_self]
  refine ⟨fun hne => absurd rfl hne, fun v hv => ?_, fun hnone => ?_, fun hnone _ _ e he => ?_⟩
  · -- the entries behind the recorded one are not older
    obtain ⟨e₀, he₀, rfl⟩ := Option.map_eq_some_iff.mp hv
    have hmem₀ := hmem e₀ (List.mem_of_mem_head? he₀)
    refine ⟨by rw [he₀]; rfl, hl.qp0 e₀ hmem₀, fun e he => ?_⟩
    rw [hk.entries e (hmem e he)]
    refine hl.mono e (hmem e he) e₀ ?_
    obtain ⟨rest, hcons⟩ : ∃ rest, s.ckNew t = e₀ :: rest := List.head?_eq_some_iff.mp he₀
    have hsorted := (List.pairwise_append.mp (hl.sorted t)).2.1
    rw [hcons] at he hsorted
    rcases List.mem_cons.mp he with rfl | he
    · exact le_refl _
    · exact le_of_lt ((List.pairwise_cons.mp hsorted).1 e he)
  · rw [hnone]
    exact h.2.2.1 (h.1 hn)
  · -- nothing was recorded, so nothing is left in the log
    rw [Option.map_eq_none_iff, List.head?_eq_none_iff] at hnone
    rw [hnone] at he
    contradiction

theorem roundInv_ckptlogReclaim {wb : ℕ} (h : RoundInv s c) (hl : CkptLogs s) :
    RoundInv (s.ckptlogReclaim B t wb) (s.recordOldest c (.ckptlogReclaim t wb : Op α β)) := by
  by_cases hn : (s.req t).ckptlog = .none
  · rw [State.recordOldest, if_pos hn, State.ckptlogReclaim, hn]
    exact h
  have hq := quiet_ckptlogReclaim (B := B) s t wb
  have hreq := req_ckptlogReclaim s B t wb
  refine h.quiet hq (fun t' hnone => ?_) fun t' ht' hsent => ?_
  · have hne : t' ≠ t := by
      rintro rfl
      rw [hnone] at hn
      exact hn rfl
    rw [hreq, Function.update_of_ne hne]
    exact hnone
  · have hnoted := h.noted t' ht' hsent
    by_cases hne : t' = t
    · subst hne
      exact noted_ckptlogReclaim hnoted hl hn
    · refine hnoted.other hl (records_ckptlogReclaim hn).toOthersKept hne ?_
        (by rw [hq.phase]; exact id) hq.qpClks ?_
      · rw [State.recordOldest, if_neg hn, Function.update_of_ne hne]
      · rw [hreq, Function.update_of_ne hne]

/-- A thread moves on in its life without entering the live list. -/
theorem RoundInv.life (h : RoundInv s c) {l : Life}
    (hl : s.InLive t ∨ ¬ (l = .live ∨ l = .finishing ∨ l = .flushed)) :
    RoundInv { s with life := Function.update s.life t l } c :=
  { h with
    trig := fun r done hp t' ht' => h.trig r done hp t' (inLive_of_update hl ht')
    noted := fun t' ht' => h.noted t' (inLive_of_update hl ht') }

/-- The QP thread goes on in its round. -/
theorem RoundInv.move (h : RoundInv s c) {p : Phase} (hpos : 0 < s.qpClks.qp0)
    (hact : p.active = s.phase.active) (hp : ∀ r done, p ≠ .trigger r done)
    (hsent : ∀ t, s.InLive t → s.phase.Sent t) : RoundInv { s with phase := p } c where
  max := h.max
  clk := h.clk
  pos := fun _ _ => hpos
  trig := fun r done hn => absurd hn (hp r done)
  noted := fun t ht _ => by
    refine (h.noted t ht (hsent t ht)).frame rfl ?_ rfl rfl rfl fun e he => Or.inl ⟨he, rfl⟩
    rw [Phase.ReclaimsCkptlogs, Phase.ReclaimsCkptlogs, hact]
    exact id

theorem roundInv_threadInit (h : RoundInv s c) (hl : CkptLogs s)
    (hreg : ∀ t ∈ s.tids, s.life t ≠ .fresh) (hf : s.life t = .fresh) (hp : ¬ s.LiveLocked) :
    RoundInv (s.threadInit t) (Function.update c t none) := by
  have hlog : s.ckptlog t = [] := List.eq_nil_iff_forall_not_mem.mpr fun e he =>
    hreg t (hl.mem t e he).2.2 hf
  refine { h with trig := fun r done hp' => ?_, noted := fun t' ht' hsent => ?_ }
  · exact absurd hp' (not_trigger_of_unlocked hp r done)
  · by_cases hne : t' = t
    · subst hne
      have hclk : ((s.threadInit t').clks t').minCkptReclaimed = maxVersion := by
        show (Function.update s.clks t' _ t').minCkptReclaimed = _
        rw [Function.update_self]
      have hnil : (s.threadInit t').ckptlog t' = [] := hlog
      rw [Noted, Function.update_self, hnil]
      exact ⟨fun _ => rfl, fun v hv => (by cases hv), fun _ => Or.inr hclk,
        fun _ _ _ e he => by cases he⟩
    · refine (h.noted t' (inLive_of_threadInit hne ht') hsent).frame (Function.update_of_ne hne _ _) id rfl ?_ ?_
        fun e he => Or.inl ⟨he, rfl⟩
      · show (Function.update s.req t _ t').ckptlog = _
        rw [Function.update_of_ne hne]
      · show (Function.update s.clks t _ t').minCkptReclaimed = _
        rw [Function.update_of_ne hne]

theorem roundInv_trigger (h : RoundInv s c) {r : Reclaim} {done : List ℕ}
    (hp : s.phase = .trigger r done) :
    RoundInv { s.sendRequest t r with phase := .trigger r (t :: done) }
      (Function.update c t none) := by
  refine ⟨h.max, h.clk, fun _ _ => ?_, fun r' done' hp' t' hl hd => ?_, fun t' hl hsent => ?_⟩
  · exact h.pos (by rw [hp]; simp) (by rw [hp]; simp)
  · rw [Phase.trigger.injEq] at hp'
    obtain ⟨rfl, rfl⟩ := hp'
    rw [List.mem_cons, not_or] at hd
    show Function.update s.req t r t' = .none
    rw [Function.update_of_ne hd.1]
    exact h.trig r done hp t' hl hd.2
  · by_cases hne : t' = t
    · subst hne
      rw [Noted, Function.update_self]
      refine ⟨fun _ => rfl, nofun, fun _ => Or.inl ?_, fun _ hr hn => ?_⟩
      · show (Function.update s.clks t' s.qpClks t').minCkptReclaimed = _
        rw [Function.update_self]
        rfl
      · -- the request is the one of the round
        obtain ⟨r', hr', hck⟩ := hr
        change some r = some r' at hr'
        rw [Option.some_inj] at hr'
        change (Function.update s.req t' r t').ckptlog = .none at hn
        rw [Function.update_self, hr'] at hn
        exact absurd hn hck
    · have hd : t' ∈ done := (List.mem_cons.mp hsent).resolve_left hne
      refine (h.noted t' hl (by rw [hp]; exact hd)).frame (Function.update_of_ne hne _ _) ?_ rfl ?_ ?_
        fun e he => Or.inl ⟨he, rfl⟩
      · rw [hp]
        exact id
      · show (Function.update s.req t r t').ckptlog = _
        rw [Function.update_of_ne hne]
      · show (Function.update s.clks t s.qpClks t').minCkptReclaimed = _
        rw [Function.update_of_ne hne]

/-! ### The barrier -/

theorem le_recordedMin {v : ℕ} : v ≤ s.recordedMin c ↔
    v ≤ maxVersion ∧ ∀ t ∈ s.tids, s.InLive t → v ≤ (c t).getD maxVersion :=
  le_foldl_min

theorem recordedMin_le {v : ℕ} (ht : t ∈ s.tids) (hl : s.InLive t) (hv : c t = some v) :
    s.recordedMin c ≤ v := by
  have h := (le_recordedMin.mp (le_refl (s.recordedMin c))).2 t ht hl
  rw [hv] at h
  exact h

/-- Where nothing is recorded there is no minimum. -/
theorem recordedMin_of_none (h : ¬ ∃ t ∈ s.tids, s.InLive t ∧ c t ≠ none) :
    s.recordedMin c = maxVersion := by
  refine le_antisymm (le_recordedMin.mp (le_refl _)).1 (le_recordedMin.mpr ⟨le_refl _, ?_⟩)
  intro t ht hl
  have hn : c t = none := by
    by_contra hn
    exact h ⟨t, ht, hl, hn⟩
  rw [hn]
  rfl

/-- The barrier takes the minimum of what was recorded and of the last frontier. -/
theorem minCkptReclaimed_eq (h : RoundInv s c) {r : Reclaim} (hp : s.phase = .help r) :
    s.minCkptReclaimed = min s.qpClks.minCkptReclaimed (s.recordedMin c) := by
  refine eq_of_forall_le_iff fun v => ?_
  have hmax := h.max
  rw [Nat.le_min, le_recordedMin, State.minCkptReclaimed, le_foldl_min]
  have hclk : ∀ t, s.InLive t → v ≤ s.qpClks.minCkptReclaimed →
      (v ≤ (s.clks t).minCkptReclaimed ↔ v ≤ (c t).getD maxVersion) := by
    intro t hl hv
    obtain ⟨-, h2, h3, -⟩ := h.noted t hl (by rw [hp]; trivial)
    rcases hc : c t with _ | w
    · rw [Option.getD_none]
      rcases h3 hc with he | he <;> rw [he]
      exact ⟨fun _ => le_trans hv hmax, fun _ => hv⟩
    · rw [(h2 w hc).1]
      rfl
  constructor
  · rintro ⟨h1, h2⟩
    exact ⟨h1, le_trans h1 hmax, fun t ht hl => (hclk t hl h1).mp (h2 t ht hl)⟩
  · rintro ⟨h1, -, h2⟩
    exact ⟨h1, fun t ht hl => (hclk t hl h1).mpr (h2 t ht hl)⟩

/-- What is recorded is not beyond the clock of the round. -/
theorem recordedMin_cases (h : RoundInv s c) {r : Reclaim} (hp : s.phase = .help r) :
    s.recordedMin c = maxVersion ∨ s.recordedMin c ≤ s.qpClks.qp0 := by
  by_cases hrec : ∃ t ∈ s.tids, s.InLive t ∧ c t ≠ none
  · obtain ⟨t, ht, hl, hc⟩ := hrec
    obtain ⟨v, hv⟩ := Option.ne_none_iff_exists'.mp hc
    obtain ⟨-, h2, -⟩ := h.noted t hl (by rw [hp]; trivial)
    exact Or.inr (le_trans (recordedMin_le ht hl hv) (h2 v hv).2.1)
  · exact Or.inl (recordedMin_of_none hrec)

theorem roundInv_startBarrier (h : RoundInv s c) {r : Reclaim} (hp : s.phase = .help r) :
    RoundInv { s with
      phase := .barrier r
      qpClks := { s.qpClks with minCkptReclaimed := s.minCkptReclaimed } } c := by
  have hmax := h.max
  refine ⟨?_, ?_, fun _ _ => h.pos (by rw [hp]; simp) (by rw [hp]; simp), fun _ _ => nofun,
    fun _ _ hsent => hsent.elim⟩
  · show s.minCkptReclaimed ≤ _
    rw [minCkptReclaimed_eq h hp]
    exact le_trans (min_le_left _ _) hmax
  · show s.minCkptReclaimed = _ ∨ s.minCkptReclaimed ≤ s.qpClks.qp0
    rw [minCkptReclaimed_eq h hp]
    have h1 := h.clk
    have h2 := recordedMin_cases h hp
    omega

/-! ### The steps -/

theorem roundInv_step {op : Op α β} (h : RoundInv s c) (hi : Inv B s) (hl : CkptLogs s)
    (hreg : ∀ t ∈ s.tids, s.life t ≠ .fresh) (hs : System.step B s op = some s') :
    RoundInv s' (s.recordOldest c op) := by
  -- outside of the part of a round in which requests are pending
  have hout : ∀ {p : Phase}, (∀ r done, p ≠ .trigger r done) → (∀ t, ¬ p.Sent t) →
      (p ≠ .idle → (∀ clk, p ≠ .waiting clk) → 0 < s.qpClks.qp0) →
      RoundInv { s with phase := p } c :=
    fun h1 h2 h3 => ⟨h.max, h.clk, h3, fun r done hp => absurd hp (h1 r done),
      fun t _ hsent => absurd hsent (h2 t)⟩
  cases Step.of_step hs with
  | threadInit t hf hp => exact roundInv_threadInit h hl hreg hf hp
  | endTx t v info =>
    have hc : RoundInv (s.tvlogCommit t v info) c := by
      refine foldl_commitCopy_rule (P := fun s₁ => RoundInv s₁ c) (fun s₁ k h₁ _ => ?_) { h with }
      unfold State.commitCopy
      split
      · exact { h₁ with }
      · split <;> exact { h₁ with }
    exact { hc with }
  | tvlogReclaim t hm =>
    rcases hi.synced_or_idle hm with hsy | he
    · exact roundInv_tvlogReclaim h hl hsy
    · rw [he]
      exact h
  | ckptlogReclaim t wb => exact roundInv_ckptlogReclaim h hl
  | finishStart t hlive => exact h.life (Or.inl (Or.inl hlive))
  | finishOplog t hlive => exact { h.life (Or.inl (Or.inr (Or.inl hlive))) with }
  | deregister t => exact { h.life (t := t) (l := .limbo) (Or.inr (by simp)) with }
  | zombinize t hlive =>
    unfold State.zombinize
    split
    · exact { h.life (t := t) (l := .gone) (Or.inr (by simp)) with }
    · exact h.life (Or.inr (by simp))
  | threadFree t =>
    unfold State.threadFree
    dsimp only
    split
    · exact { h with }
    · exact { h with }
  | detect v =>
    exact { hout (p := .waiting v) nofun (fun _ => id) fun _ hw => absurd rfl (hw v) with }
  | detected clk hp =>
    have hlt := (hi.core.clocks.wait clk hp).2
    have hclk := h.clk
    rw [ltClock_iff] at hlt
    refine ⟨h.max, ?_, fun _ _ => ?_, nofun, fun _ _ hsent => hsent.elim⟩
    · show s.qpClks.minCkptReclaimed = _ ∨ s.qpClks.minCkptReclaimed ≤ correctQpClock B clk
      omega
    · show 0 < correctQpClock B clk
      omega
  | skip => exact hout nofun (fun _ => id) fun hne => absurd rfl hne
  | startTrigger hp =>
    refine ⟨h.max, h.clk, fun _ _ => h.pos (by rw [hp]; simp) (by rw [hp]; simp),
      fun r done _ t ht _ => ?_, fun t _ hsent => ?_⟩
    · exact hi.req.idle (by rw [hp]; rfl) ht
    · exact absurd hsent List.not_mem_nil
  | trigger t r done hp => exact roundInv_trigger h hp
  | endTrigger r done hp hall =>
    refine h.move (h.pos (by rw [hp]; simp) (by rw [hp]; simp)) (by rw [hp]; rfl) nofun ?_
    intro t ht
    rw [hp]
    exact hall t (hi.tx.mem_tids ht) ht
  | reapLock r hp =>
    exact h.move (h.pos (by rw [hp]; simp) (by rw [hp]; simp)) (by rw [hp]; rfl) nofun
      fun _ _ => by rw [hp]; trivial
  | reapRetry r done hp =>
    exact h.move (h.pos (by rw [hp]; simp) (by rw [hp]; simp)) (by rw [hp]; rfl) nofun
      fun _ _ => by rw [hp]; trivial
  | endReap r done hp =>
    exact h.move (h.pos (by rw [hp]; simp) (by rw [hp]; simp)) (by rw [hp]; rfl) nofun
      fun _ _ => by rw [hp]; trivial
  | reap t r done hp hz =>
    have hf := reapThread_frame s B t
    refine ⟨?_, ?_, fun _ _ => ?_, nofun, fun t' ht' _ => ?_⟩
    · show (s.reapThread B t).qpClks.minCkptReclaimed ≤ _
      rw [hf.qpClks]
      exact h.max
    · show (s.reapThread B t).qpClks.minCkptReclaimed = _ ∨
        (s.reapThread B t).qpClks.minCkptReclaimed ≤ (s.reapThread B t).qpClks.qp0
      rw [hf.qpClks]
      exact h.clk
    · show 0 < (s.reapThread B t).qpClks.qp0
      rw [hf.qpClks]
      exact h.pos (by rw [hp]; simp) (by rw [hp]; simp)
    · -- a zombie is not live
      have hne : t' ≠ t := by
        rintro rfl
        change (s.reapThread B t').InLive t' at ht'
        rw [State.InLive] at ht'
        rcases hf.self with he | he
        · rw [he, hz] at ht'
          simp at ht'
        · rw [he] at ht'
          simp at ht'
      have hlive : s.InLive t' := by
        change (s.reapThread B t).InLive t' at ht'
        rw [State.InLive, hf.life t' hne] at ht'
        exact ht'
      refine (h.noted t' hlive (by rw [hp]; trivial)).other (t := t) hl
        { othersKept_reapThread s B t with } hne rfl ?_ hf.qpClks (hf.req t' hne)
      rw [hp]
      exact id
  | startBarrier r hp => exact roundInv_startBarrier h hp
  | publish r =>
    have hidle := hout (p := .idle) nofun (fun _ => id) fun hne => absurd rfl hne
    unfold State.publish
    split
    · exact { hidle with }
    · exact { hidle with }
  | _ => exact { h with }

/-- Where no request is pending, the logs of the live threads get no entry. -/
theorem ckptlog_of_idle {op : Op α β} (hi : Inv B s) (hl : CkptLogs s)
    (hreg : ∀ t ∈ s.tids, s.life t ≠ .fresh) (hp : s.phase.active = none)
    (hs : System.step B s op = some s') (ht : s'.InLive t) :
    ∀ e ∈ s'.ckptlog t, s.InLive t ∧ e ∈ s.ckptlog t ∧ s'.entries e = s.entries e := by
  have hidle : ∀ t, s.MayReclaim t → s.req t = .none := fun t hm => hi.req.idle hp hm.inLive
  have hlife : ∀ t' l, s.InLive t' ∨ ¬ (l = .live ∨ l = .finishing ∨ l = .flushed) →
      State.InLive { s with life := Function.update s.life t' l } t → s.InLive t :=
    fun _ _ => inLive_of_update
  cases Step.of_step hs with
  | threadInit t' hf =>
    intro e he
    change e ∈ s.ckptlog t at he
    have hne : t ≠ t' := by
      rintro rfl
      exact hreg t (hl.mem t e he).2.2 hf
    change Function.update s.life t' _ t = _ ∨ Function.update s.life t' _ t = _ ∨
      Function.update s.life t' _ t = _ at ht
    rw [Function.update_of_ne hne] at ht
    exact ⟨ht, he, rfl⟩
  | endTx t' v info =>
    have hc : (s.tvlogCommit t' v info).ckptlog = s.ckptlog ∧
        (s.tvlogCommit t' v info).entries = s.entries := by
      refine foldl_commitCopy_rule (P := fun s₁ => s₁.ckptlog = s.ckptlog ∧
        s₁.entries = s.entries) (fun s₁ k h₁ _ => ?_) ⟨rfl, rfl⟩
      unfold State.commitCopy
      split
      · exact h₁
      · split <;> exact h₁
    intro e he
    change e ∈ (s.tvlogCommit t' v info).ckptlog t at he
    change (s.tvlogCommit t' v info).InLive t at ht
    rw [hc.1] at he
    rw [State.InLive, (sameThreads_tvlogCommit s t' v info).life] at ht
    exact ⟨ht, he, congrFun hc.2 e⟩
  | tvlogReclaim t' hm =>
    rw [State.tvlogReclaim, hidle t' hm] at ht ⊢
    exact fun e he => ⟨ht, he, rfl⟩
  | ckptlogReclaim t' wb hm =>
    rw [State.ckptlogReclaim, hidle t' hm] at ht ⊢
    exact fun e he => ⟨ht, he, rfl⟩
  | finishStart t' h1 => exact fun e he => ⟨hlife t' _ (Or.inl (Or.inl h1)) ht, he, rfl⟩
  | finishOplog t' h1 => exact fun e he => ⟨hlife t' _ (Or.inl (Or.inr (Or.inl h1))) ht, he, rfl⟩
  | deregister t' => exact fun e he => ⟨hlife t' .limbo (Or.inr (by simp)) ht, he, rfl⟩
  | zombinize t' =>
    unfold State.zombinize at ht ⊢
    split at ht
    · rw [if_pos ‹_›]
      exact fun e he => ⟨hlife t' .gone (Or.inr (by simp)) ht, he, rfl⟩
    · rw [if_neg ‹_›]
      exact fun e he => ⟨hlife t' .zombie (Or.inr (by simp)) ht, he, rfl⟩
  | threadFree t' =>
    unfold State.threadFree at ht ⊢
    dsimp only at ht ⊢
    split at ht
    · rw [if_pos ‹_›]
      exact fun e he => ⟨ht, he, rfl⟩
    · rw [if_neg ‹_›]
      exact fun e he => ⟨ht, he, rfl⟩
  | publish r =>
    unfold State.publish at ht ⊢
    exact fun e he => ⟨ht, he, rfl⟩
  | trigger t' r done hp' => rw [hp'] at hp; contradiction
  | endTrigger r done hp' => rw [hp'] at hp; contradiction
  | reapLock r hp' => rw [hp'] at hp; contradiction
  | reap t' r done hp' => rw [hp'] at hp; contradiction
  | reapRetry r done hp' => rw [hp'] at hp; contradiction
  | endReap r done hp' => rw [hp'] at hp; contradiction
  | startBarrier r hp' => rw [hp'] at hp; contradiction
  | _ => exact fun e he => ⟨ht, he, rfl⟩

/-- The frontier is not beyond an unreclaimed entry of a live thread. -/
def Behind (s : State α β) : Prop :=
  ∀ t, s.InLive t → ∀ e ∈ s.ckptlog t, s.qpClks.minCkptReclaimed ≤ (s.entries e).ckptSClk

/-- From the barrier of a round that reclaimed checkpoint logs until the next round, the
frontier is not beyond an unreclaimed entry. -/
structure BehindInv (s : State α β) : Prop where
  barrier : ∀ r, s.phase = .barrier r → r.ckptlog ≠ .none → Behind s
  free : s.needFree = true → (s.phase = .idle ∨ ∃ clk, s.phase = .waiting clk) → Behind s
  used : s.phase = .detected → s.needFree = false

/-- After a barrier that meets the condition, the frontier is not beyond an unreclaimed
entry. -/
theorem behind_startBarrier (h : RoundInv s c) (hi : Inv B s) {r : Reclaim}
    (hp : s.phase = .help r) (hck : r.ckptlog ≠ .none) (hserved : s.AllServed)
    (hrec : (∃ t ∈ s.tids, s.InLive t ∧ s.ckptlog t ≠ []) →
      ∃ t ∈ s.tids, s.InLive t ∧ c t ≠ none) :
    ∀ t, s.InLive t → ∀ e ∈ s.ckptlog t, s.recordedMin c ≤ (s.entries e).ckptSClk := by
  intro t hl e he
  have ht := hi.tx.mem_tids hl
  obtain ⟨-, h2, -, h4⟩ := h.noted t hl (by rw [hp]; trivial)
  rcases hc : c t with _ | v
  · -- the entry is of this round, and some thread has recorded an older one
    obtain ⟨t₀, ht₀, hl₀, hc₀⟩ := hrec ⟨t, ht, hl, List.ne_nil_of_mem he⟩
    obtain ⟨v, hv⟩ := Option.ne_none_iff_exists'.mp hc₀
    have hle := ((h.noted t₀ hl₀ (by rw [hp]; trivial)).2.1 v hv).2.1
    calc s.recordedMin c ≤ v := recordedMin_le ht₀ hl₀ hv
      _ ≤ s.qpClks.qp0 := hle
      _ ≤ (s.entries e).ckptSClk := by
        refine h4 hc ⟨r, by rw [hp]; rfl, hck⟩ ?_ e he
        rw [hserved t ht hl]
        rfl
  · exact le_trans (recordedMin_le ht hl hc) ((h2 v hc).2.2 e he)

theorem behindInv_step {op : Op α β} (h : BehindInv s) (hr : RoundInv s c) (hi : Inv B s)
    (hl : CkptLogs s) (hreg : ∀ t ∈ s.tids, s.life t ≠ .fresh)
    (hok : op = .startBarrier → s.phase.ReclaimsCkptlogs →
      s.recordedMin c ≤ s.qpClks.minCkptReclaimed ∧
        ((∃ t ∈ s.tids, s.InLive t ∧ s.ckptlog t ≠ []) → ∃ t ∈ s.tids, s.InLive t ∧ c t ≠ none))
    (hs : System.step B s op = some s') : BehindInv s' := by
  have hlogs : s.phase.active = none → Behind s →
      s'.qpClks.minCkptReclaimed = s.qpClks.minCkptReclaimed → Behind s' := by
    intro hp hb hmin t ht e he
    obtain ⟨h1, h2, h3⟩ := ckptlog_of_idle hi hl hreg hp hs ht e he
    rw [hmin, h3]
    exact hb t h1 e h2
  -- the steps of the threads
  have hkeep : s'.phase = s.phase →
      s'.qpClks.minCkptReclaimed = s.qpClks.minCkptReclaimed →
      (s.phase.active = none → s'.needFree = s.needFree) → BehindInv s' := by
    intro hphase hmin hneed
    refine ⟨fun r hp hck => ?_, fun hn hp => ?_, fun hp => ?_⟩
    · rw [hphase] at hp
      exact hlogs (by rw [hp]; rfl) (h.barrier r hp hck) hmin
    · rw [hphase] at hp
      have hact : s.phase.active = none := by
        rcases hp with hp | ⟨clk, hp⟩ <;> rw [hp] <;> rfl
      rw [hneed hact] at hn
      exact hlogs hact (h.free hn hp) hmin
    · rw [hphase] at hp
      rw [hneed (by rw [hp]; rfl)]
      exact h.used hp
  -- the steps to a phase in which nothing is freed
  have hbusy : s'.phase.active ≠ none → BehindInv s' := by
    intro hact
    refine ⟨fun r hp => ?_, fun _ hp => ?_, fun hp => ?_⟩
    · rw [hp] at hact
      exact absurd rfl hact
    · rcases hp with hp | ⟨clk, hp⟩ <;> rw [hp] at hact <;> exact absurd rfl hact
    · rw [hp] at hact
      exact absurd rfl hact
  cases Step.of_step hs with
  | endTx t v info =>
    have hsame := sameThreads_tvlogCommit s t v info
    have hn : (s.tvlogCommit t v info).needFree = s.needFree := by
      refine foldl_commitCopy_rule (P := fun s₁ => s₁.needFree = s.needFree) (fun s₁ k h₁ _ => ?_) rfl
      unfold State.commitCopy
      split
      · exact h₁
      · split <;> exact h₁
    exact hkeep hsame.phase (congrArg SysClks.minCkptReclaimed hsame.qpClks) fun _ => hn
  | tvlogReclaim t hm =>
    have hq := quiet_tvlogReclaim (B := B) s t
    refine hkeep hq.phase (by rw [hq.qpClks]) fun hp => ?_
    rw [State.tvlogReclaim, hi.req.idle hp hm.inLive]
    rfl
  | ckptlogReclaim t wb hm =>
    have hq := quiet_ckptlogReclaim (B := B) s t wb
    refine hkeep hq.phase (by rw [hq.qpClks]) fun hp => ?_
    rw [State.ckptlogReclaim, hi.req.idle hp hm.inLive]
    rfl
  | zombinize t =>
    refine hkeep ?_ ?_ fun _ => ?_ <;> unfold State.zombinize <;> split <;> rfl
  | threadFree t =>
    refine hkeep ?_ ?_ fun _ => ?_ <;> unfold State.threadFree <;> dsimp only <;> split <;> rfl
  | detect v hp =>
    refine ⟨fun _ hp' => (by cases hp'), fun hn _ => ?_, fun hp' => by cases hp'⟩
    exact hlogs (by rw [hp]; rfl) (h.free hn (Or.inl hp)) rfl
  | detected clk => 
    refine ⟨fun _ hp' => (by cases hp'), fun _ hp' => ?_, fun _ => rfl⟩
    rcases hp' with hp' | ⟨clk', hp'⟩ <;> cases hp'
  | skip hp =>
    refine ⟨fun _ hp' => (by cases hp'), fun hn _ => ?_, fun hp' => by cases hp'⟩
    change s.needFree = true at hn
    rw [h.used hp] at hn
    contradiction
  | startBarrier r hp hserved =>
    refine ⟨fun r' hr' hck => ?_, fun _ hp' => ?_, fun hp' => by cases hp'⟩
    · rw [Phase.barrier.injEq] at hr'
      subst hr'
      obtain ⟨h1, h2⟩ := hok rfl ⟨r, by rw [hp]; rfl, hck⟩
      intro t ht e he
      show s.minCkptReclaimed ≤ _
      rw [minCkptReclaimed_eq hr hp, min_eq_right h1]
      exact behind_startBarrier hr hi hp hck hserved h2 t ht e he
    · rcases hp' with hp' | ⟨clk, hp'⟩ <;> contradiction
  | publish r hp =>
    refine ⟨fun r' hp' => ?_, fun hn _ => ?_, fun hp' => ?_⟩
    · contradiction
    · have hck : r.ckptlog ≠ .none := of_decide_eq_true hn
      refine hlogs (by rw [hp]; rfl) (h.barrier r hp hck) ?_
      unfold State.publish
      dsimp only
      split <;> rfl
    · contradiction
  | startTrigger => exact hbusy (Option.some_ne_none _)
  | trigger => exact hbusy (Option.some_ne_none _)
  | endTrigger => exact hbusy (Option.some_ne_none _)
  | reapLock => exact hbusy (Option.some_ne_none _)
  | reap => exact hbusy (Option.some_ne_none _)
  | reapRetry => exact hbusy (Option.some_ne_none _)
  | endReap => exact hbusy (Option.some_ne_none _)
  | _ => exact hkeep rfl rfl fun _ => rfl

/-- The frontier never advances. -/
theorem frontier_le_step {op : Op α β} (hs : System.step B s op = some s') :
    s'.qpClks.minCkptReclaimed ≤ s.qpClks.minCkptReclaimed := by
  have hq : s'.qpClks = s.qpClks → s'.qpClks.minCkptReclaimed ≤ s.qpClks.minCkptReclaimed :=
    fun h => le_of_eq (congrArg SysClks.minCkptReclaimed h)
  cases Step.of_step hs with
  | endTx t v info => exact hq (sameThreads_tvlogCommit s t v info).qpClks
  | tvlogReclaim t => exact hq (quiet_tvlogReclaim s t).qpClks
  | ckptlogReclaim t wb => exact hq (quiet_ckptlogReclaim s t wb).qpClks
  | zombinize t =>
    refine hq ?_
    unfold State.zombinize
    split <;> rfl
  | threadFree t =>
    refine hq ?_
    unfold State.threadFree
    dsimp only
    split <;> rfl
  | reap t => exact hq (reapThread_frame s B t).qpClks
  | startBarrier => exact (minCkptReclaimed_le s).1
  | publish r =>
    unfold State.publish
    dsimp only
    split <;> exact le_refl _
  | _ => exact le_refl _

namespace Recorded

variable {f f' : Recorded α β} {org : ℕ → α} {ok : Recorded α β → Op α β → Prop}

/-- What holds in every state of every run. -/
structure Inv (B : ℕ) (f : Recorded α β) : Prop where
  inv : System.Inv B f.sys
  logs : CkptLogs f.sys
  reg : ∀ t ∈ f.sys.tids, f.sys.life t ≠ .fresh
  round : RoundInv f.sys f.oldest
  last : f.sys.qpClks.minCkptReclaimed ≤ f.lastMin

theorem step_cases {op : Op α β} (hs : f.step B op = some f') :
    System.step B f.sys op = some f'.sys ∧ f'.oldest = f.sys.recordOldest f.oldest op := by
  obtain ⟨s', hs', rfl⟩ := Option.map_eq_some_iff.mp hs
  exact ⟨hs', rfl⟩

theorem inv_start (org : ℕ → α) : Inv B (start org : Recorded α β) where
  inv := inv_initial org
  logs := ckptLogs_initial org
  reg := fun _ ht => absurd ht List.not_mem_nil
  round := ⟨le_refl _, Or.inl rfl, fun hn => absurd rfl hn, nofun, fun _ _ hsent => hsent.elim⟩
  last := le_refl _

theorem inv_step {op : Op α β} (h : Inv B f) (hs : f.step B op = some f') : Inv B f' := by
  obtain ⟨hs', hold⟩ := step_cases hs
  refine ⟨System.inv_step h.inv hs', ckptLogs_step h.logs h.inv hs', registered_step h.reg hs', ?_, ?_⟩
  · rw [hold]
    exact roundInv_step h.round h.inv h.logs h.reg hs'
  · have hle := frontier_le_step hs'
    obtain ⟨s', hs'', rfl⟩ := Option.map_eq_some_iff.mp hs
    dsimp only at hle ⊢
    split
    · split
      · -- the barrier takes the minimum with what was recorded
        cases Step.of_step hs'' with
        | startBarrier r hp =>
          show f.sys.minCkptReclaimed ≤ _
          rw [minCkptReclaimed_eq h.round hp]
          exact min_le_right _ _
      · exact le_trans hle h.last
    · exact le_trans hle h.last

theorem Reachable.inv (hr : Reachable B org ok f) : Inv B f := by
  refine Run.Reach.invariant (I := Inv B) ?_ (fun f op f' h _ hs => inv_step h hs) hr
  rintro f rfl
  exact inv_start org

/-- Where the barriers meet the condition, `BehindInv` holds. -/
theorem Reachable.behind (hr : Reachable B org BarriersOk f) : BehindInv f.sys := by
  have h : Inv B f ∧ BehindInv f.sys := by
    refine Run.Reach.invariant (I := fun f => Inv B f ∧ BehindInv f.sys) ?_ ?_ hr
    · rintro f rfl
      exact ⟨inv_start org, nofun, nofun, nofun⟩
    · rintro f op f' ⟨h, hb⟩ hok hs
      refine ⟨inv_step h hs, behindInv_step hb h.round h.inv h.logs h.reg ?_ (step_cases hs).1⟩
      rintro rfl
      exact hok
  exact h.2

/-- What the barrier of a round that reclaimed checkpoint logs does. -/
theorem follows_barrier_iff (h : Inv B f) {r : Reclaim} (hp : f.sys.phase = .help r)
    (hck : r.ckptlog ≠ .none) (hs : f.step B .startBarrier = some f') :
    f.Follows B f' ↔ f.FrontierOk := by
  have hmin := minCkptReclaimed_eq h.round hp
  have hnew : f'.sys.qpClks.minCkptReclaimed = f.sys.minCkptReclaimed ∧ f.sys.AllServed ∧
      f'.sys.InLive = f.sys.InLive ∧ f'.sys.ckptlog = f.sys.ckptlog ∧
      f'.sys.entries = f.sys.entries := by
    have hs' := (step_cases hs).1
    generalize f'.sys = s' at hs'
    cases Step.of_step hs' with
    | startBarrier r' _ hserved => exact ⟨rfl, hserved, rfl, rfl, rfl⟩
  obtain ⟨hfront, hserved, hlive, hlog, hent⟩ := hnew
  rw [Follows, NotBeyond, untilClk, untilClk, hfront, hlive, hlog, hent, hmin]
  constructor
  · rintro ⟨heq, -, hbeyond⟩
    refine ⟨by rw [← heq]; exact min_le_left _ _, fun ⟨t, ht, hl, hne⟩ => ?_⟩
    by_contra hrec
    -- nothing was recorded, so the frontier is `MAX_VERSION`, beyond every entry
    obtain ⟨e, he⟩ := List.exists_mem_of_ne_nil _ hne
    have hb := hbeyond t hl e he
    rw [heq, recordedMin_of_none hrec, correctQpClock] at hb
    have hle := h.logs.qp0 e (h.logs.mem t e he).1
    have hpos := h.round.pos (by rw [hp]; simp) (by rw [hp]; simp)
    have hclk := h.inv.core.clocks.qp0
    have hmax := h.inv.core.clocks.max
    omega
  · rintro ⟨hle, hrec⟩
    have hlast := h.last
    rw [min_eq_right hle]
    refine ⟨rfl, fun hlt => absurd hlt (by omega), fun t hl e he => ?_⟩
    have hb := behind_startBarrier h.round h.inv hp hck hserved hrec t hl e he
    rw [correctQpClock]
    omega

/-- In every run, the barrier of a round that reclaimed checkpoint logs sets the frontier to
the minimum that was recorded in the round, advancing it when all oldest entries have
advanced and not setting it beyond an unreclaimed entry, exactly when the frontier was not
below that minimum before, and, if nothing was recorded, no checkpoint log has an entry.
Where all barriers are such, no clock that is passed to `ckptlog_cleanup` is beyond an
unreclaimed entry of a live thread. -/
theorem follows_iff (hr : Reachable B org Run.any f) :
    (∀ r f', f.sys.phase = .help r → r.ckptlog ≠ .none → f.step B .startBarrier = some f' →
      (f.Follows B f' ↔ f.FrontierOk)) ∧
    (Reachable B org BarriersOk f → ∀ t f', f.step B (.cleanup t) = some f' → f.NotBeyond B) := by
  constructor
  · intro r f' hp hck hs
    exact follows_barrier_iff hr.inv hp hck hs
  · intro hok t f' hs t' hl e he
    have hb := hok.behind
    obtain ⟨clk, hp, hneed⟩ : ∃ clk, f.sys.phase = .waiting clk ∧ f.sys.needFree = true := by
      have hs' := (step_cases hs).1
      rw [System.step] at hs'
      split at hs'
      · rename_i clk hp
        split at hs'
        · rename_i hc
          exact ⟨clk, hp, hc.1⟩
        · contradiction
      · contradiction
    have hle := hb.free hneed (Or.inr ⟨clk, hp⟩) t' hl e he
    rw [untilClk, correctQpClock]
    omega

/-- The first version that is checkpointed sets the frontier to its clock, and the clock of the
cleanup in the next round is that one. -/
theorem follows_iff_first :
    (∃ f f' : Recorded ℕ ℕ, Reachable 0 (fun _ => 0) Run.any f ∧ f.oldest 0 = some 40 ∧
      f.step 0 .startBarrier = some f' ∧ f.Follows 0 f') ∧
    ∃ f f' : Recorded ℕ ℕ, Reachable 0 (fun _ => 0) BarriersOk f ∧ f.sys.ckptlog 0 = [0] ∧
      f.step 0 (.cleanup 0) = some f' ∧ f.NotBeyond 0 := by
  have hd : ((Run.exec (step 0) Run.any (start fun _ => 0 : Recorded ℕ ℕ)
      ([.threadInit 0, .threadInit 1, .begin 0 10, .lock 0 5 .copy, .endTx 0 20 7] ++
        (roundOfTwo 40 ⟨.ckpt, .writebackAll⟩).take 13)).map fun f =>
        decide (f.oldest 0 = some 40 ∧ f.sys.phase = .help ⟨.ckpt, .writebackAll⟩ ∧ f.FrontierOk ∧
          (f.step 0 .startBarrier).isSome)) = some true := by
    decide +kernel
  have hd' : ((Run.exec (step 0) BarriersOk (start fun _ => 0 : Recorded ℕ ℕ)
      ([.threadInit 0, .threadInit 1, .begin 0 10, .lock 0 5 .copy, .endTx 0 20 7] ++
        roundOfTwo 40 ⟨.ckpt, .writebackAll⟩ ++ [.detect 60])).map fun f =>
        decide (f.sys.ckptlog 0 = [0] ∧ (f.step 0 (.cleanup 0)).isSome)) = some true := by
    decide +kernel
  obtain ⟨f, hf, hp⟩ := Option.map_eq_some_iff.mp hd
  obtain ⟨h1, h2, h3, h4⟩ := of_decide_eq_true hp
  obtain ⟨f', hf'⟩ := Option.isSome_iff_exists.mp h4
  obtain ⟨g, hg, hq⟩ := Option.map_eq_some_iff.mp hd'
  obtain ⟨h5, h6⟩ := of_decide_eq_true hq
  obtain ⟨g', hg'⟩ := Option.isSome_iff_exists.mp h6
  have hr : Reachable 0 (fun _ => 0) Run.any f := .of_exec (.init rfl) hf
  have hr' : Reachable 0 (fun _ => 0) BarriersOk g := .of_exec (.init rfl) hg
  refine ⟨⟨f, f', hr, h1, hf', ?_⟩, g, g', hr', h5, hg', ?_⟩
  · exact ((follows_iff hr).1 _ f' h2 (by decide) hf').mpr h3
  · exact (follows_iff (hr'.mono fun _ _ _ => trivial)).2 hr' 0 g' hg'

/-- The versions of the objects 5 and 6 are checkpointed in two rounds, and two rounds later the
entry of the first one is reclaimed.  All oldest entries have advanced, but the frontier
stays at the clock of the entry that is gone. -/
theorem frontier_stays_behind : ∃ (f f' : Recorded ℕ ℕ) (r : Reclaim),
    Reachable 0 (fun _ => 0) Run.any f ∧ f.sys.phase = .help r ∧ r.ckptlog ≠ .none ∧
      f.step 0 .startBarrier = some f' ∧ f.lastMin = 40 ∧ f.sys.recordedMin f.oldest = 60 ∧
      f'.sys.qpClks.minCkptReclaimed = 40 ∧ ¬ f.Follows 0 f' := by
  have hd : ((Run.exec (step 0) Run.any (start fun _ => 0 : Recorded ℕ ℕ)
      ([.threadInit 0, .threadInit 1, .begin 0 10, .lock 0 5 .copy, .endTx 0 20 7] ++
        roundOfTwo 40 ⟨.ckpt, .writebackAll⟩ ++
        [.begin 0 45, .lock 0 6 .copy, .endTx 0 50 8] ++
        roundOfTwo 60 ⟨.ckpt, .writebackAll⟩ ++ roundOfTwo 80 ⟨.ckpt, .writebackAll⟩ ++
        (roundOfTwo 100 ⟨.ckpt, .writebackAll⟩).take 13)).bind fun f =>
        (f.step 0 .startBarrier).map fun f' =>
          decide (f.sys.phase = .help ⟨.ckpt, .writebackAll⟩ ∧ f.lastMin = 40 ∧
            f.sys.recordedMin f.oldest = 60 ∧ f'.sys.qpClks.minCkptReclaimed = 40)) =
      some true := by
    decide +kernel
  obtain ⟨f, hf, hd⟩ := Option.bind_eq_some_iff.mp hd
  obtain ⟨f', hf', hp⟩ := Option.map_eq_some_iff.mp hd
  obtain ⟨h1, h2, h3, h4⟩ := of_decide_eq_true hp
  refine ⟨f, f', _, .of_exec (.init rfl) hf, h1, by decide, hf', h2, h3, h4, fun hfollows => ?_⟩
  have heq := hfollows.1
  omega

end Recorded

end TimeStone.System
