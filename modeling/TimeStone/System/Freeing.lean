/-
When an original master is deallocated.

A free record of a transient version log becomes a tombstone in a checkpoint log, or a
mark on the current entry.  When the head of the log passes it, the object goes to the
free set of the thread, and `ckptlog_cleanup` deallocates those of its objects whose
tombstone is older than a given clock.  `qp_cleanup_ckptlogs` takes the minimum of
`__min_ckpt_reclaimed` for this clock.  That minimum never grows, so it is never behind a
tombstone that a live thread has passed, and nothing is deallocated there
(`cleanup_deallocs_nothing`).  `ckptlog_destroy` takes `MAX_VERSION`, whatever the other
checkpoint logs hold (`freed_with_entry_left`).

* `DestroyGated` — a log is destroyed only when the tombstones in its free set are older
  than what is left in every checkpoint log;
* `CkptLogs` — the checkpoint logs hold entries in the order of their numbers;
* `FreeSets` — an object is in one free set at most, or deallocated;
* `MinCkpt` — what `__min_ckpt_reclaimed` is a minimum of;
* `masters_freed_safely` — an object is deallocated once, and no checkpoint log holds an
  entry of it from then on.
-/
import TimeStone.System.Masters

namespace TimeStone.System

variable {α β : Type*} {B t W k : ℕ} {s s' : State α β} {c : List ℕ}

/-- The entries in a checkpoint log, from `head` to `tail`. -/
def State.ckptlog (s : State α β) (t : ℕ) : List ℕ := s.ckOld t ++ s.ckNew t

/-- The tombstones of the objects that `ckptlog_destroy` deallocates are older than every
entry in a checkpoint log of a live thread or a zombie. -/
def State.Gated (s : State α β) (B t : ℕ) : Prop :=
  ∀ o ∈ s.deallocs B t maxVersion, ∀ t' ∈ s.tids, ∀ e ∈ s.ckptlog t',
    ltClock B (s.tombstoneClk o) (s.entries e).ckptSClk

instance (s : State α β) (B t : ℕ) : Decidable (s.Gated B t) :=
  inferInstanceAs (Decidable (∀ o ∈ _, ∀ t' ∈ _, ∀ e ∈ _, _))

/-- The condition on the steps that destroy the logs of a thread. -/
def DestroyGated (B : ℕ) (s : State α β) : Op α β → Prop
  | .zombinize t => s.LogsEmpty t → s.Gated B t
  | .threadFree t => s.LogsEmpty t → s.Gated B t
  | .reap t => (s.reapLogs B t).LogsEmpty t → (s.reapLogs B t).Gated B t
  | _ => True

instance (s : State α β) (op : Op α β) : Decidable (DestroyGated B s op) := by
  unfold DestroyGated
  induction op using Op.casesOn <;> infer_instance

/-- The entries in the checkpoint logs, and the clocks of all entries. -/
structure CkptLogs (s : State α β) : Prop where
  sorted : ∀ t, (s.ckptlog t).Pairwise (· < ·)
  mem : ∀ t, ∀ e ∈ s.ckptlog t, e < s.numEntries ∧ s.dropped e = false ∧ t ∈ s.tids
  owner : ∀ t t' e, e ∈ s.ckptlog t → e ∈ s.ckptlog t' → t' = t
  dropped : ∀ e, s.dropped e = true → e < s.numEntries
  mono : ∀ e₂ < s.numEntries, ∀ e₁ ≤ e₂, (s.entries e₁).ckptSClk ≤ (s.entries e₂).ckptSClk
  qp0 : ∀ e < s.numEntries, (s.entries e).ckptSClk ≤ s.qpClks.qp0

/-- The objects in the free sets and those that are deallocated: each has a tombstone that
a head has passed. -/
structure FreeSets (s : State α β) : Prop where
  clk : ∀ o, s.tombstoneClk o = maxVersion ∨ ∃ e < s.numEntries, (s.entries e).isTomb = true ∧
    (s.entries e).obj = o ∧ s.tombstoneClk o = (s.entries e).ckptSClk
  tomb : ∀ o, o ∈ s.freed ∨ (∃ t, o ∈ s.ckFree t) → ∃ e, s.tombstone e = true ∧
    (s.entries e).obj = o ∧ s.dropped e = true
  reg : ∀ t, ∀ o ∈ s.ckFree t, t ∈ s.tids
  nodup : ∀ t, (s.ckFree t).Nodup
  owner : ∀ t t' o, o ∈ s.ckFree t → o ∈ s.ckFree t' → t' = t
  once : s.freed.Nodup
  disjoint : ∀ t, ∀ o ∈ s.ckFree t, o ∉ s.freed
  gone : ∀ o ∈ s.freed, ∀ t, ∀ e ∈ s.ckptlog t, (s.entries e).obj ≠ o

/-- The part of `FreeSets` that does not depend on when an object is deallocated. -/
structure FreeOnce (s : State α β) : Prop where
  tomb : ∀ o, o ∈ s.freed ∨ (∃ t, o ∈ s.ckFree t) → ∃ e, s.tombstone e = true ∧
    (s.entries e).obj = o ∧ s.dropped e = true
  reg : ∀ t, ∀ o ∈ s.ckFree t, t ∈ s.tids
  nodup : ∀ t, (s.ckFree t).Nodup
  owner : ∀ t t' o, o ∈ s.ckFree t → o ∈ s.ckFree t' → t' = t
  once : s.freed.Nodup
  disjoint : ∀ t, ∀ o ∈ s.ckFree t, o ∉ s.freed

/-- The QP thread has sent its request to `t` in this round, and not passed the barrier. -/
def Phase.Sent (t : ℕ) : Phase → Prop
  | .trigger _ done => t ∈ done
  | .reapStart _ | .reap _ _ | .help _ => True
  | _ => False

/-- The minimum of `__min_ckpt_reclaimed` is at most `v`, or will be after the barrier,
because `t` has reclaimed its checkpoint log in this round. -/
def State.MinOk (s : State α β) (t v : ℕ) : Prop :=
  s.qpClks.minCkptReclaimed ≤ v ∨
    s.phase.Sent t ∧ (s.req t).ckptlog = .none ∧ (s.clks t).minCkptReclaimed ≤ v

/-- What `__min_ckpt_reclaimed` is a minimum of: the clocks of the entries that
`prev_head` has passed and of the tombstones in the free sets. -/
structure MinCkpt (s : State α β) : Prop where
  max : s.qpClks.minCkptReclaimed ≤ maxVersion
  trig : ∀ r done, s.phase = .trigger r done → ∀ t, s.InLive t → t ∉ done → s.req t = .none
  old : ∀ t, s.InLive t → ∀ e ∈ s.ckOld t, s.MinOk t (s.entries e).ckptSClk
  free : ∀ t, s.InLive t → ∀ o ∈ s.ckFree t, s.MinOk t (s.tombstoneClk o)

/-! ### The checkpoint logs -/

theorem ckptlog_enq (s : State α β) (t : ℕ) (x : CkptEntry α) (t' : ℕ) :
    (s.ckptlogEnq t x).ckptlog t' =
      if t' = t then s.ckptlog t' ++ [s.numEntries] else s.ckptlog t' := by
  by_cases he : t' = t
  · subst he
    simp [State.ckptlog, State.ckptlogEnq]
  · simp [State.ckptlog, State.ckptlogEnq, he]

theorem ckptLogs_enq (h : CkptLogs s) {x : CkptEntry α} (ht : t ∈ s.tids)
    (hx : x.ckptSClk = s.qpClks.qp0) : CkptLogs (s.ckptlogEnq t x) := by
  have hold : ∀ e < s.numEntries, (s.ckptlogEnq t x).entries e = s.entries e :=
    fun e he => Function.update_of_ne (by omega) _ _
  have hself : (s.ckptlogEnq t x).entries s.numEntries = x := Function.update_self _ _ _
  have hmem : ∀ t' e, e ∈ (s.ckptlogEnq t x).ckptlog t' →
      e ∈ s.ckptlog t' ∨ t' = t ∧ e = s.numEntries := by
    intro t' e he
    rw [ckptlog_enq] at he
    split at he
    · rename_i ht'
      rw [List.mem_append, List.mem_singleton] at he
      exact he.imp_right fun hn => ⟨ht', hn⟩
    · exact Or.inl he
  have hnew : ∀ t', s.numEntries ∉ s.ckptlog t' := fun t' he => absurd (h.mem t' _ he).1 (by omega)
  refine ⟨fun t' => ?_, fun t' e he => ?_, fun t₁ t₂ e h1 h2 => ?_, fun e he => ?_,
    fun e₂ he₂ e₁ he₁ => ?_, fun e he => ?_⟩
  · rw [ckptlog_enq]
    split
    · refine List.pairwise_append.mpr ⟨h.sorted t', List.pairwise_singleton _ _, ?_⟩
      intro e he n hn
      rw [List.mem_singleton.mp hn]
      exact (h.mem t' e he).1
    · exact h.sorted t'
  · rcases hmem t' e he with he | ⟨rfl, rfl⟩
    · obtain ⟨h1, h2, h3⟩ := h.mem t' e he
      exact ⟨Nat.lt_succ_of_lt h1, h2, h3⟩
    · refine ⟨Nat.lt_succ_self _, ?_, ht⟩
      by_contra hd
      exact absurd (h.dropped _ (Bool.not_eq_false _ ▸ hd)) (lt_irrefl _)
  · rcases hmem t₁ e h1 with hm₁ | ⟨ht₁, hn₁⟩
    · rcases hmem t₂ e h2 with hm₂ | ⟨-, hn₂⟩
      · exact h.owner t₁ t₂ e hm₁ hm₂
      · exact absurd (hn₂ ▸ hm₁) (hnew t₁)
    · rcases hmem t₂ e h2 with hm₂ | ⟨ht₂, -⟩
      · exact absurd (hn₁ ▸ hm₂) (hnew t₂)
      · rw [ht₁, ht₂]
  · exact Nat.lt_succ_of_lt (h.dropped e he)
  · rcases Nat.lt_succ_iff_lt_or_eq.mp he₂ with he₂ | rfl
    · rw [hold e₁ (by omega), hold e₂ he₂]
      exact h.mono e₂ he₂ e₁ he₁
    · rcases Nat.lt_or_eq_of_le he₁ with he₁ | rfl
      · rw [hold e₁ he₁, hself, hx]
        exact h.qp0 e₁ he₁
      · exact le_refl _
  · rcases Nat.lt_succ_iff_lt_or_eq.mp he with he | rfl
    · rw [hold e he]
      exact h.qp0 e he
    · rw [hself, hx]
      exact le_refl _

/-- The logs of the threads become sublists of what they were. -/
theorem CkptLogs.sub (h : CkptLogs s) (hentries : s'.entries = s.entries)
    (hnum : s'.numEntries = s.numEntries) (htids : s'.tids = s.tids)
    (hqp : s'.qpClks.qp0 = s.qpClks.qp0) (hsub : ∀ t, (s'.ckptlog t).Sublist (s.ckptlog t))
    (hdrop : ∀ e, s'.dropped e = true → s.dropped e = true ∨
      e < s.numEntries ∧ ∀ t, e ∉ s'.ckptlog t) : CkptLogs s' := by
  refine ⟨fun t => (h.sorted t).sublist (hsub t), fun t e he => ?_,
    fun t t' e h1 h2 => h.owner t t' e ((hsub t).subset h1) ((hsub t').subset h2),
    fun e he => ?_, ?_, ?_⟩
  · obtain ⟨h1, h2, h3⟩ := h.mem t e ((hsub t).subset he)
    rw [hnum, htids]
    refine ⟨h1, ?_, h3⟩
    by_contra hd
    rcases hdrop e (Bool.not_eq_false _ ▸ hd) with hd | hd
    · rw [h2] at hd
      contradiction
    · exact hd.2 t he
  · rw [hnum]
    rcases hdrop e he with he | he
    · exact h.dropped e he
    · exact he.1
  · rw [hnum, hentries]
    exact h.mono
  · rw [hnum, hentries, hqp]
    exact h.qp0

theorem ckptlog_dropEntry {e : ℕ} {rest : List ℕ} (he : s.ckOld t = e :: rest) (t' : ℕ) :
    s.ckptlog t' = if t' = t then e :: (s.dropEntry t e rest).ckptlog t'
      else (s.dropEntry t e rest).ckptlog t' := by
  by_cases ht : t' = t
  · subst ht
    simp [State.ckptlog, State.dropEntry, he]
  · simp [State.ckptlog, State.dropEntry, ht]

theorem ckptlog_passEntry {e : ℕ} {rest : List ℕ} (he : s.ckNew t = e :: rest) (t' : ℕ) :
    (s.passEntry t e rest).ckptlog t' = s.ckptlog t' := by
  by_cases ht : t' = t
  · subst ht
    simp [State.ckptlog, State.passEntry, he]
  · simp [State.ckptlog, State.passEntry, ht]

theorem ckptLogs_dropEntry (h : CkptLogs s) {e : ℕ} {rest : List ℕ} (he : s.ckOld t = e :: rest) :
    CkptLogs (s.dropEntry t e rest) := by
  have hlog := ckptlog_dropEntry he
  have hmem : e ∈ s.ckptlog t := by
    rw [hlog, if_pos rfl]
    exact List.mem_cons_self
  refine h.sub rfl rfl rfl rfl (fun t' => ?_) fun e' he' => ?_
  · rw [hlog t']
    split
    · exact List.sublist_cons_self _ _
    · exact List.Sublist.refl _
  · change Function.update s.dropped e true e' = true at he'
    by_cases heq : e' = e
    · subst heq
      refine Or.inr ⟨(h.mem t e' hmem).1, fun t' ht' => ?_⟩
      -- the log was sorted, so the entry was in it once
      have hsorted := h.sorted t
      rw [hlog, if_pos rfl] at hsorted
      by_cases htt : t' = t
      · subst htt
        exact lt_irrefl _ ((List.pairwise_cons.mp hsorted).1 e' ht')
      · refine htt (h.owner t t' e' hmem ?_)
        rw [hlog, if_neg htt]
        exact ht'
    · rw [Function.update_of_ne heq] at he'
      exact Or.inl he'

theorem ckptLogs_passEntry (h : CkptLogs s) {e : ℕ} {rest : List ℕ} (he : s.ckNew t = e :: rest) :
    CkptLogs (s.passEntry t e rest) :=
  h.sub rfl rfl rfl rfl (fun t' => by rw [ckptlog_passEntry he]) fun _ => Or.inl

theorem ckptLogs_markTombstone (h : CkptLogs s) (hs : s.Synced t) (ht : t ∈ s.tids) (wrt k : ℕ) :
    CkptLogs (s.markTombstone t wrt k) := by
  unfold State.markTombstone
  dsimp only
  split
  · exact h
  · split
    · exact { ckptLogs_enq (x := ⟨_, _, _, _, _⟩) h ht hs.1 with }
    · exact { h with }

theorem ckptLogs_checkpoint (h : CkptLogs s) (hs : s.Synced t) (ht : t ∈ s.tids) (wrt k : ℕ) :
    CkptLogs (s.checkpoint t wrt k) :=
  { ckptLogs_enq (x := ⟨_, _, _, _, _⟩) h ht hs.1 with }

theorem ckptLogs_tvlogReclaim (h : CkptLogs s) {t' : ℕ} (hs : s.Synced t') (ht : t' ∈ s.tids) :
    CkptLogs (s.tvlogReclaim B t') := by
  refine (tvlogReclaim_rule (P := fun s₁ => CkptLogs s₁ ∧ Quiet s s₁) ?_ ?_ ?_ ?_ ?_ ?_
    ⟨h, Quiet.refl s⟩).1
  · rintro s₁ w rest k ⟨h₁, hq⟩ _ _ _
    exact ⟨ckptLogs_markTombstone h₁ (hq.synced hs) (hq.tids ▸ ht) _ _,
      quiet_markTombstone hq _ _⟩
  · exact fun s₁ w rest h₁ _ => ⟨{ h₁.1 with }, { h₁.2 with }⟩
  · exact fun s₁ h₁ => ⟨{ h₁.1 with }, { h₁.2 with }⟩
  · rintro s₁ w rest k ⟨h₁, hq⟩ _ _ _ _
    exact ⟨ckptLogs_checkpoint h₁ (hq.synced hs) (hq.tids ▸ ht) _ _, { hq with }⟩
  · exact fun s₁ w rest h₁ _ _ _ => ⟨{ h₁.1 with }, { h₁.2 with }⟩
  · exact fun s₁ h₁ _ => ⟨{ h₁.1 with }, { h₁.2 with }⟩

theorem ckptLogs_noteMinCkpt (h : CkptLogs s) (t : ℕ) : CkptLogs (s.noteMinCkpt t) := by
  unfold State.noteMinCkpt
  split
  · exact h
  · exact { h with }

theorem ckptLogs_ckptlogReclaim (h : CkptLogs s) (t wb : ℕ) :
    CkptLogs (s.ckptlogReclaim B t wb) := by
  refine ckptlogReclaim_rule (P := CkptLogs) (fun budget => ?_) h
  refine ckptlogReclaimX_rule (P := CkptLogs) ?_ ?_ ?_ ?_ ?_ h
  · exact fun s₁ e rest h₁ he => ckptLogs_dropEntry h₁ he
  · exact fun s₁ h₁ _ => ckptLogs_noteMinCkpt h₁ t
  · exact fun s₁ e rest h₁ he _ _ _ => ckptLogs_passEntry (s := s₁.writeback e) { h₁ with } he
  · exact fun s₁ e rest h₁ he _ _ => ckptLogs_passEntry h₁ he
  · exact fun s₁ h₁ => { h₁ with }

theorem ckptLogs_reapLogs (h : CkptLogs s) (hc : Core B s 0 0 []) (ht : t ∈ s.tids) :
    CkptLogs (s.reapLogs B t) := by
  refine (hc.reapLogs_rule (P := fun s₁ => CkptLogs s₁ ∧ s₁.tids = s.tids) ?_ ?_ ?_ ?_).1
  · exact ⟨{ h with }, rfl⟩
  · exact fun s₁ r h₁ => ⟨{ h₁.1 with }, h₁.2⟩
  · exact fun s₁ h₁ _ hs₁ => ⟨ckptLogs_tvlogReclaim h₁.1 hs₁ (h₁.2 ▸ ht),
      (quiet_tvlogReclaim s₁ t).tids.trans h₁.2⟩
  · exact fun s₁ h₁ _ => ⟨ckptLogs_ckptlogReclaim h₁.1 t 0,
      (quiet_ckptlogReclaim s₁ t 0).tids.trans h₁.2⟩

theorem ckptLogs_step {op : Op α β} (h : CkptLogs s) (hi : Inv B s)
    (hs : step B s op = some s') : CkptLogs s' := by
  cases Step.of_step hs with
  | threadInit t =>
    refine { h with mem := fun t' e he => ?_ }
    obtain ⟨h1, h2, h3⟩ := h.mem t' e he
    exact ⟨h1, h2, List.mem_cons_of_mem _ h3⟩
  | endTx t v info =>
    have hc : CkptLogs (s.tvlogCommit t v info) := by
      refine foldl_commitCopy_rule (P := CkptLogs) (fun s₁ k h₁ _ => ?_) { h with }
      unfold State.commitCopy
      split
      · exact { h₁ with }
      · split <;> exact { h₁ with }
    exact { hc with }
  | tvlogReclaim t hm =>
    rcases hi.synced_or_idle hm with hsy | he
    · exact ckptLogs_tvlogReclaim h hsy (hi.tx.mem_tids hm.inLive)
    · rw [he]
      exact h
  | ckptlogReclaim t wb => exact ckptLogs_ckptlogReclaim h t wb
  | zombinize t =>
    unfold State.zombinize
    split
    · exact { h with }
    · exact { h with }
  | threadFree t =>
    unfold State.threadFree
    dsimp only
    split
    · exact { h with }
    · exact { h with }
  | detected clk hp =>
    refine { h with qp0 := fun e he => le_trans (h.qp0 e he) ?_ }
    have hlt := (hi.core.clocks.wait clk hp).2
    rw [ltClock_iff] at hlt
    show s.qpClks.qp0 ≤ correctQpClock B clk
    omega
  | reap t r done _ hz =>
    have hlogs : CkptLogs (s.reapLogs B t) :=
      ckptLogs_reapLogs h hi.core (hi.tx.reg t (by rw [hz]; simp))
    exact { reapThread_rule (P := CkptLogs) hlogs (fun _ => { hlogs with }) fun _ =>
      { hlogs with } with }
  | publish r =>
    unfold State.publish
    split
    · exact { h with }
    · exact { h with }
  | _ => exact { h with }

theorem ckptLogs_initial (org : ℕ → α) : CkptLogs (initial org : State α β) := by
  refine ⟨fun t => List.Pairwise.nil, ?_, ?_, ?_, ?_, ?_⟩
  · intro t e he
    contradiction
  · intro t t' e he
    contradiction
  · intro e he
    contradiction
  · intro e he
    contradiction
  · intro e he
    contradiction

/-! ### The free sets -/

/-- An object has one tombstone. -/
theorem Masters.tomb_unique (h : Masters s) {e₁ e₂ : ℕ} (h₁ : s.tombstone e₁ = true)
    (h₂ : s.tombstone e₂ = true) (he : (s.entries e₁).obj = (s.entries e₂).obj) : e₁ = e₂ := by
  have hc₁ := (h.tomb e₁ h₁).2.1
  have hc₂ := (h.tomb e₂ h₂).2.1
  rw [he, hc₂, Option.some_inj] at hc₁
  exact hc₁.symm

theorem FreeSets.freeOnce (h : FreeSets s) : FreeOnce s := { h with }

theorem FreeOnce.freeSets (h : FreeOnce s) (hclk : ∀ o, s.tombstoneClk o = maxVersion ∨
      ∃ e < s.numEntries, (s.entries e).isTomb = true ∧ (s.entries e).obj = o ∧
        s.tombstoneClk o = (s.entries e).ckptSClk)
    (hgone : ∀ o ∈ s.freed, ∀ t, ∀ e ∈ s.ckptlog t, (s.entries e).obj ≠ o) : FreeSets s :=
  { h with clk := hclk, gone := hgone }

/-- An entry is enqueued. -/
theorem freeOnce_enq (h : FreeOnce s) (hlt : ∀ e, s.tombstone e = true → e < s.numEntries)
    (t : ℕ) (x : CkptEntry α) : FreeOnce (s.ckptlogEnq t x) := by
  refine { h with tomb := fun o ho => ?_ }
  obtain ⟨e, h1, h2, h3⟩ := h.tomb o ho
  have hne : e ≠ s.numEntries := Nat.ne_of_lt (hlt e h1)
  refine ⟨e, (Function.update_of_ne hne _ _).trans h1, ?_, h3⟩
  exact (congrArg CkptEntry.obj (Function.update_of_ne hne _ _)).trans h2

/-- An entry is marked. -/
theorem freeOnce_mark (h : FreeOnce s) (e₀ : ℕ) :
    FreeOnce { s with tombstone := Function.update s.tombstone e₀ true } := by
  refine { h with tomb := fun o ho => ?_ }
  obtain ⟨e, h1, h2, h3⟩ := h.tomb o ho
  refine ⟨e, ?_, h2, h3⟩
  show Function.update s.tombstone e₀ true e = true
  by_cases he : e = e₀
  · rw [he, Function.update_self]
  · rw [Function.update_of_ne he]
    exact h1

/-- An entry of an object without a tombstone is enqueued; the clock of a tombstone is
noted. -/
theorem freeSets_enq (h : FreeSets s) (hm : Masters s) {x : CkptEntry α} {f : ℕ → ℕ}
    (hnew : ∀ e, s.tombstone e = true → (s.entries e).obj ≠ x.obj)
    (hf : ∀ o, f o = s.tombstoneClk o ∨ x.isTomb = true ∧ x.obj = o ∧ f o = x.ckptSClk) :
    FreeSets { s.ckptlogEnq t x with tombstoneClk := f } := by
  have hold : ∀ e < s.numEntries, (s.ckptlogEnq t x).entries e = s.entries e :=
    fun e he => Function.update_of_ne (by omega) _ _
  have hself : (s.ckptlogEnq t x).entries s.numEntries = x := Function.update_self _ _ _
  refine FreeOnce.freeSets { freeOnce_enq h.freeOnce (fun e he => (hm.tomb e he).1) t x with }
    (fun o => ?_) fun o ho t' e he => ?_
  · rcases hf o with hsame | ⟨h1, h2, h3⟩
    · rcases h.clk o with hmax | ⟨e, hlt, h1, h2, h3⟩
      · exact Or.inl (hsame.trans hmax)
      · refine Or.inr ⟨e, Nat.lt_succ_of_lt hlt, ?_⟩
        show ((s.ckptlogEnq t x).entries e).isTomb = _ ∧ ((s.ckptlogEnq t x).entries e).obj = _ ∧
          f o = ((s.ckptlogEnq t x).entries e).ckptSClk
        rw [hold e hlt]
        exact ⟨h1, h2, hsame.trans h3⟩
    · refine Or.inr ⟨s.numEntries, Nat.lt_succ_self _, ?_⟩
      show ((s.ckptlogEnq t x).entries _).isTomb = _ ∧ ((s.ckptlogEnq t x).entries _).obj = _ ∧
        f o = ((s.ckptlogEnq t x).entries _).ckptSClk
      rw [hself]
      exact ⟨h1, h2, h3⟩
  · change e ∈ (s.ckptlogEnq t x).ckptlog t' at he
    show ((s.ckptlogEnq t x).entries e).obj ≠ o
    -- a deallocated object has a tombstone, so the new entry is not of it
    have hx : x.obj ≠ o := by
      obtain ⟨e', h1, h2, -⟩ := h.tomb o (Or.inl ho)
      rw [← h2]
      exact (hnew e' h1).symm
    by_cases hn : e = s.numEntries
    · rw [hn, hself]
      exact hx
    · have he' : e ∈ s.ckptlog t' := by
        rw [ckptlog_enq] at he
        split at he
        · rw [List.mem_append, List.mem_singleton] at he
          exact he.resolve_right hn
        · exact he
      have hent : (s.ckptlogEnq t x).entries e = s.entries e := Function.update_of_ne hn _ _
      rw [hent]
      exact h.gone o ho t' e he'

theorem freeSets_markTombstone (h : FreeSets s) (hm : Masters s) (hc : Core B s t W []) {t' : ℕ}
    {w : WrtSet} (hw : w ∈ s.tvOld t') (hk : k ∈ w.copies) (hkind : (s.copies k).kind = .free) :
    FreeSets (s.markTombstone t' w.wrtClk k) := by
  have hlt := (hc.member (List.mem_append_left _ hw) hk).1
  unfold State.markTombstone
  dsimp only
  split
  · exact h
  rename_i hst
  split
  · have henq := freeSets_enq (t := t') (x := ⟨(s.copies k).obj, w.wrtClk, (s.clks t').qp0, true,
      none⟩) (f := Function.update s.tombstoneClk (s.copies k).obj (s.clks t').qp0) h hm
      (fun e he => hm.ne_of_free hc hlt hkind hst he) fun o => ?_
    · exact { henq with }
    · by_cases ho : o = (s.copies k).obj
      · subst ho
        exact Or.inr ⟨rfl, rfl, Function.update_self _ _ _⟩
      · exact Or.inl (Function.update_of_ne ho _ _)
  · rename_i e₀ _
    exact { freeOnce_mark h.freeOnce e₀ with clk := h.clk, gone := h.gone }

theorem freeSets_checkpoint (h : FreeSets s) (hm : Masters s) (hc : Core B s t W []) {t' : ℕ}
    {w : WrtSet} (hs : s.Synced t') (hw : w ∈ s.tvNew t') (hk : k ∈ w.copies)
    (hlt : ltClock B w.wrtClk (s.clks t').qp0) (hn : s.NeedsCkpt B t' k) :
    FreeSets (s.checkpoint t' w.wrtClk k) :=
  { freeSets_enq (t := t') (x := ⟨(s.copies k).obj, w.wrtClk, (s.clks t').qp0, false,
      (s.copies k).content⟩) (f := s.tombstoneClk) h hm
      (fun _ he => hm.ne_of_needsCkpt hc hs hw hk hlt hn he) fun _ => Or.inl rfl with }

/-- The head passes an entry.  The object of a tombstone is not in a free set yet, because
it has only this one. -/
theorem freeOnce_dropEntry (h : FreeOnce s) (huniq : ∀ e₁ e₂, s.tombstone e₁ = true →
      s.tombstone e₂ = true → (s.entries e₁).obj = (s.entries e₂).obj → e₁ = e₂)
    (hl : CkptLogs s) {e : ℕ} {rest : List ℕ} (he : s.ckOld t = e :: rest) :
    FreeOnce (s.dropEntry t e rest) := by
  have hin : e ∈ s.ckptlog t := by
    rw [ckptlog_dropEntry he, if_pos rfl]
    exact List.mem_cons_self
  have hdrop : ∀ e', s.dropped e' = true → (s.dropEntry t e rest).dropped e' = true := by
    intro e' he'
    show Function.update s.dropped e true e' = true
    by_cases heq : e' = e
    · rw [heq, Function.update_self]
    · rw [Function.update_of_ne heq]
      exact he'
  by_cases htomb : s.tombstone e = true
  · have hfresh : ¬ ((s.entries e).obj ∈ s.freed ∨ ∃ t', (s.entries e).obj ∈ s.ckFree t') := by
      intro ho
      obtain ⟨e', h1, h2, h3⟩ := h.tomb _ ho
      rw [huniq e' e h1 htomb h2, (hl.mem t e hin).2.1] at h3
      contradiction
    rw [not_or, not_exists] at hfresh
    have hfree : ∀ t' o, o ∈ (s.dropEntry t e rest).ckFree t' →
        o ∈ s.ckFree t' ∨ t' = t ∧ o = (s.entries e).obj := by
      intro t' o ho
      rw [State.dropEntry, if_pos htomb] at ho
      change o ∈ Function.update s.ckFree t (s.ckFree t ++ [(s.entries e).obj]) t' at ho
      by_cases htt : t' = t
      · subst htt
        rw [Function.update_self, List.mem_append, List.mem_singleton] at ho
        exact ho.imp_right fun ho => ⟨rfl, ho⟩
      · rw [Function.update_of_ne htt] at ho
        exact Or.inl ho
    refine ⟨fun o ho => ?_, fun t' o ho => ?_, fun t' => ?_, fun t₁ t₂ o h1 h2 => ?_, h.once,
      fun t' o ho => ?_⟩
    · have hcases : (o ∈ s.freed ∨ ∃ t', o ∈ s.ckFree t') ∨ o = (s.entries e).obj := by
        rcases ho with ho | ⟨t', ho⟩
        · exact Or.inl (Or.inl ho)
        · rcases hfree t' o ho with ho | ⟨-, ho⟩
          · exact Or.inl (Or.inr ⟨t', ho⟩)
          · exact Or.inr ho
      rcases hcases with ho | rfl
      · obtain ⟨e', h1, h2, h3⟩ := h.tomb o ho
        exact ⟨e', h1, h2, hdrop e' h3⟩
      · exact ⟨e, htomb, rfl, Function.update_self _ _ _⟩
    · rcases hfree t' o ho with ho | ⟨rfl, -⟩
      · exact h.reg t' o ho
      · exact (hl.mem t' e hin).2.2
    · rw [State.dropEntry, if_pos htomb]
      show (Function.update s.ckFree t (s.ckFree t ++ [(s.entries e).obj]) t').Nodup
      by_cases htt : t' = t
      · subst htt
        rw [Function.update_self]
        refine List.nodup_append.mpr ⟨h.nodup t', List.pairwise_singleton _ _,
          fun o ho o' ho' heq => ?_⟩
        rw [heq, List.mem_singleton.mp ho'] at ho
        exact hfresh.2 t' ho
      · rw [Function.update_of_ne htt]
        exact h.nodup t'
    · rcases hfree t₁ o h1 with hm₁ | ⟨ht₁, ho₁⟩
      · rcases hfree t₂ o h2 with hm₂ | ⟨-, ho₂⟩
        · exact h.owner t₁ t₂ o hm₁ hm₂
        · exact absurd (ho₂ ▸ hm₁) (hfresh.2 t₁)
      · rcases hfree t₂ o h2 with hm₂ | ⟨ht₂, -⟩
        · exact absurd (ho₁ ▸ hm₂) (hfresh.2 t₂)
        · rw [ht₁, ht₂]
    · rcases hfree t' o ho with ho | ⟨-, ho⟩
      · exact h.disjoint t' o ho
      · exact ho ▸ hfresh.1
  · have hck : (s.dropEntry t e rest).ckFree = s.ckFree := by
      rw [State.dropEntry, if_neg htomb]
    refine ⟨fun o ho => ?_, ?_, ?_, ?_, h.once, ?_⟩
    · rw [hck] at ho
      obtain ⟨e', h1, h2, h3⟩ := h.tomb o ho
      exact ⟨e', h1, h2, hdrop e' h3⟩
    · rw [hck]
      exact h.reg
    · rw [hck]
      exact h.nodup
    · rw [hck]
      exact h.owner
    · rw [hck]
      exact h.disjoint

theorem freeSets_dropEntry (h : FreeSets s) (hm : Masters s) (hl : CkptLogs s) {e : ℕ}
    {rest : List ℕ} (he : s.ckOld t = e :: rest) : FreeSets (s.dropEntry t e rest) := by
  refine FreeOnce.freeSets (freeOnce_dropEntry h.freeOnce (fun _ _ => hm.tomb_unique) hl he) h.clk
    fun o ho t' e' he' => h.gone o ho t' e' ?_
  rw [ckptlog_dropEntry he]
  split
  · exact List.mem_cons_of_mem _ he'
  · exact he'

theorem mem_deallocs {u o : ℕ} : o ∈ s.deallocs B t u ↔
    o ∈ s.ckFree t ∧ ltClock B (s.tombstoneClk o) u := by
  rw [State.deallocs, List.mem_filter, decide_eq_true_iff]

theorem freeOnce_cleanup (h : FreeOnce s) (B t u : ℕ) : FreeOnce (s.ckptlogCleanup B t u) := by
  have hfree : ∀ t' o, o ∈ (s.ckptlogCleanup B t u).ckFree t' →
      o ∈ s.ckFree t' ∧ o ∉ s.deallocs B t u := by
    intro t' o ho
    change o ∈ Function.update s.ckFree t _ t' at ho
    by_cases htt : t' = t
    · subst htt
      rw [Function.update_self, List.mem_filter, decide_eq_true_iff] at ho
      exact ⟨ho.1, fun hd => ho.2 (mem_deallocs.mp hd).2⟩
    · rw [Function.update_of_ne htt] at ho
      refine ⟨ho, fun hd => htt ?_⟩
      exact h.owner t t' o (mem_deallocs.mp hd).1 ho
  have hfreed : ∀ o, o ∈ (s.ckptlogCleanup B t u).freed →
      o ∈ s.freed ∨ o ∈ s.deallocs B t u := fun o ho => List.mem_append.mp ho
  refine ⟨fun o ho => h.tomb o ?_, fun t' o ho => h.reg t' o (hfree t' o ho).1,
    fun t' => ?_, fun t₁ t₂ o h1 h2 => ?_, ?_, fun t' o ho hf => ?_⟩
  · rcases ho with ho | ⟨t', ho⟩
    · exact (hfreed o ho).imp_right fun hd => ⟨t, (mem_deallocs.mp hd).1⟩
    · exact Or.inr ⟨t', (hfree t' o ho).1⟩
  · show (Function.update s.ckFree t _ t').Nodup
    by_cases htt : t' = t
    · subst htt
      rw [Function.update_self]
      exact (h.nodup t').filter _
    · rw [Function.update_of_ne htt]
      exact h.nodup t'
  · exact h.owner t₁ t₂ o (hfree t₁ o h1).1 (hfree t₂ o h2).1
  · refine List.nodup_append.mpr ⟨h.once, (h.nodup t).filter _, fun o ho o' ho' heq => ?_⟩
    exact h.disjoint t o' (mem_deallocs.mp ho').1 (heq ▸ ho)
  · rcases hfreed o hf with hf | hf
    · exact h.disjoint t' o (hfree t' o ho).1 hf
    · exact (hfree t' o ho).2 hf

theorem freeSets_cleanup (h : FreeSets s) {u : ℕ}
    (hgone : ∀ o ∈ s.deallocs B t u, ∀ t', ∀ e ∈ s.ckptlog t', (s.entries e).obj ≠ o) :
    FreeSets (s.ckptlogCleanup B t u) := by
  refine (freeOnce_cleanup h.freeOnce B t u).freeSets h.clk fun o ho => ?_
  rcases List.mem_append.mp ho with ho | ho
  · exact h.gone o ho
  · exact hgone o ho

/-- The clock that is noted for an object in a free set is that of its tombstone. -/
theorem FreeSets.clk_of_tomb (h : FreeSets s) (hm : Masters s) {e : ℕ}
    (he : s.tombstone e = true) : s.tombstoneClk (s.entries e).obj = maxVersion ∨
      s.tombstoneClk (s.entries e).obj = (s.entries e).ckptSClk := by
  rcases h.clk (s.entries e).obj with hmax | ⟨e', hlt, h1, h2, h3⟩
  · exact Or.inl hmax
  · rcases hm.src e' hlt with hsrc | hsrc
    · rw [hm.tomb_unique hsrc.2.1 he h2] at h3
      exact Or.inr h3
    · rw [h1] at hsrc
      exact absurd hsrc.1 (by simp)

/-- Every entry of an object in a free set is at most as new as the clock of its
tombstone. -/
theorem FreeSets.le_clk (h : FreeSets s) (hm : Masters s) (hl : CkptLogs s) {o e : ℕ}
    (ho : o ∈ s.ckFree t) (he : e < s.numEntries) (heq : (s.entries e).obj = o)
    (hmax : s.tombstoneClk o ≠ maxVersion) : (s.entries e).ckptSClk ≤ s.tombstoneClk o := by
  obtain ⟨e', h1, h2, -⟩ := h.tomb o (Or.inr ⟨t, ho⟩)
  obtain ⟨hlt, hcur, -⟩ := hm.tomb e' h1
  have hclk := h.clk_of_tomb hm h1
  rw [h2] at hcur hclk
  rw [hclk.resolve_left hmax]
  exact hl.mono e' hlt e (hm.cur o e' hcur e he heq)

theorem freeSets_destroyLogs (h : FreeSets s) (hm : Masters s) (hl : CkptLogs s)
    (hg : s.Gated B t) : FreeSets (s.destroyLogs B t) := by
  have hc : FreeSets (s.ckptlogCleanup B t maxVersion) := by
    refine freeSets_cleanup h fun o ho t' e he heq => ?_
    obtain ⟨h1, -, h3⟩ := hl.mem t' e he
    have hlt := hg o ho t' h3 e he
    obtain ⟨ho', hclk⟩ := mem_deallocs.mp ho
    rw [ltClock_iff] at hlt hclk
    have hle := h.le_clk hm hl ho' h1 heq (by omega)
    omega
  exact { hc with }

/-! ### The minimum -/

/-- What `ckptlog_reclaim_x` does to the free set of `t`, and what it leaves alone. -/
structure CkptFrame (t : ℕ) (s s' : State α β) : Prop where
  entries : s'.entries = s.entries
  tombstone : s'.tombstone = s.tombstone
  tombstoneClk : s'.tombstoneClk = s.tombstoneClk
  free : ∀ o ∈ s'.ckFree t, o ∈ s.ckFree t ∨
    ∃ e ∈ s.ckOld t, s.tombstone e = true ∧ (s.entries e).obj = o
  other : ∀ t' ≠ t, s'.ckFree t' = s.ckFree t' ∧ s'.ckOld t' = s.ckOld t' ∧ s'.clks t' = s.clks t'

theorem ckptFrame_dropEntry (h : CkptFrame t s s') {e : ℕ} {rest : List ℕ} (he : e ∈ s.ckOld t) :
    CkptFrame t s (s'.dropEntry t e rest) := by
  refine { h with free := fun o ho => ?_, other := fun t' hne => ?_ }
  · change o ∈ (if s'.tombstone e then
      Function.update s'.ckFree t (s'.ckFree t ++ [(s'.entries e).obj]) else s'.ckFree) t at ho
    split at ho
    · rename_i htomb
      rw [Function.update_self, List.mem_append, List.mem_singleton] at ho
      rcases ho with ho | ho
      · exact h.free o ho
      · rw [h.tombstone] at htomb
        rw [h.entries] at ho
        exact Or.inr ⟨e, he, htomb, ho.symm⟩
    · exact h.free o ho
  · obtain ⟨h1, h2, h3⟩ := h.other t' hne
    refine ⟨?_, (Function.update_of_ne hne _ _).trans h2, h3⟩
    show (if s'.tombstone e then
      Function.update s'.ckFree t (s'.ckFree t ++ [(s'.entries e).obj]) else s'.ckFree) t' = _
    split
    · rw [Function.update_of_ne hne]
      exact h1
    · exact h1

theorem ckptFrame_passEntry (h : CkptFrame t s s') (e : ℕ) (rest : List ℕ) :
    CkptFrame t s (s'.passEntry t e rest) := by
  refine { h with other := fun t' hne => ?_ }
  obtain ⟨h1, h2, h3⟩ := h.other t' hne
  exact ⟨h1, (Function.update_of_ne hne _ _).trans h2, h3⟩

/-- After `ckptlog_reclaim_x` the thread has noted a clock that is at most that of every
entry that `prev_head` has passed. -/
theorem ckptlogReclaimX_frame (hl : CkptLogs s) (budget : Option ℕ) :
    CkptFrame t s (s.ckptlogReclaimX B t budget) ∧
      ∀ e ∈ (s.ckptlogReclaimX B t budget).ckOld t,
        ((s.ckptlogReclaimX B t budget).clks t).minCkptReclaimed ≤ (s.entries e).ckptSClk := by
  -- the first loop empties `[head, prev_head)`
  obtain ⟨⟨hf, -, hl₁⟩, hnil⟩ := dropLoop_rule (t := t) (s := s)
    (P := fun s₁ => CkptFrame t s s₁ ∧ (∀ e ∈ s₁.ckOld t, e ∈ s.ckOld t) ∧ CkptLogs s₁) (by
      rintro s₁ e rest ⟨h₁, hsub, hl₁⟩ he
      refine ⟨ckptFrame_dropEntry h₁ (hsub e (by rw [he]; exact List.mem_cons_self)),
        fun e' he' => hsub e' ?_, ckptLogs_dropEntry hl₁ he⟩
      change e' ∈ Function.update s₁.ckOld t rest t at he'
      rw [Function.update_self] at he'
      rw [he]
      exact List.mem_cons_of_mem _ he')
    ⟨⟨rfl, rfl, rfl, fun _ => Or.inl, fun _ _ => ⟨rfl, rfl, rfl⟩⟩, fun _ => id, hl⟩ rfl
  unfold State.ckptlogReclaimX
  dsimp only
  generalize State.dropLoop t (s.ckOld t) s = s₁ at hf hl₁ hnil ⊢
  -- the clock of the oldest entry that is left is noted
  have hnote : CkptFrame t s (s₁.noteMinCkpt t) ∧ ∀ e ∈ (s₁.noteMinCkpt t).ckptlog t,
      ((s₁.noteMinCkpt t).clks t).minCkptReclaimed ≤ (s.entries e).ckptSClk := by
    unfold State.noteMinCkpt
    split
    · rename_i hnew
      refine ⟨hf, fun e he => ?_⟩
      rw [State.ckptlog, hnil, hnew] at he
      contradiction
    · rename_i e₀ rest hnew
      refine ⟨{ hf with other := fun t' hne => ?_ }, fun e he => ?_⟩
      · obtain ⟨h1, h2, h3⟩ := hf.other t' hne
        exact ⟨h1, h2, (Function.update_of_ne hne _ _).trans h3⟩
      · change e ∈ s₁.ckptlog t at he
        have hlt := (hl₁.mem t e he).1
        have hsorted := hl₁.sorted t
        rw [State.ckptlog, hnil, hnew, List.nil_append] at he hsorted
        show (Function.update s₁.clks t _ t).minCkptReclaimed ≤ _
        rw [Function.update_self, ← hf.entries]
        refine hl₁.mono e hlt e₀ ?_
        rcases List.mem_cons.mp he with rfl | he
        · exact le_refl _
        · exact le_of_lt ((List.pairwise_cons.mp hsorted).1 e he)
  -- the second loop moves entries within the log
  have hwb : CkptFrame t s (State.writebackLoop B t ((s₁.noteMinCkpt t).ckNew t) budget
      (s₁.noteMinCkpt t)) ∧ _ :=
    writebackLoop_rule (P := fun s₂ => CkptFrame t s s₂ ∧ ∀ e ∈ s₂.ckptlog t,
      (s₂.clks t).minCkptReclaimed ≤ (s.entries e).ckptSClk)
      (fun s₂ e rest h₂ he _ _ _ =>
        ⟨ckptFrame_passEntry (show CkptFrame t s (s₂.writeback e) from { h₂.1 with }) e rest,
          fun e' he' => h₂.2 e' (ckptlog_passEntry (s := s₂.writeback e) he t ▸ he')⟩)
      (fun s₂ e rest h₂ he _ _ => ⟨ckptFrame_passEntry h₂.1 e rest, fun e' he' =>
        h₂.2 e' (ckptlog_passEntry he t ▸ he')⟩) hnote rfl
  exact ⟨{ hwb.1 with }, fun e he => hwb.2 e (List.mem_append_left _ he)⟩

theorem minCkpt_ckptlogReclaim (h : MinCkpt s) (hm : Masters s) (hf : FreeSets s) (hl : CkptLogs s)
    {wb : ℕ} (hr : s.InLive t → s.req t ≠ .none → s.phase.Sent t) :
    MinCkpt (s.ckptlogReclaim B t wb) := by
  have hq := quiet_ckptlogReclaim (B := B) s t wb
  have hreq := req_ckptlogReclaim s B t wb
  have hlive : ∀ {t'}, (s.ckptlogReclaim B t wb).InLive t' → s.InLive t' := by
    intro t' ht'
    rw [State.InLive, hq.life] at ht'
    exact ht'
  have hother : ∀ t' ≠ t, (s.ckptlogReclaim B t wb).clks t' = s.clks t' →
      ∀ v, s.MinOk t' v → (s.ckptlogReclaim B t wb).MinOk t' v := by
    intro t' hne hclk v hv
    rw [State.MinOk, hq.qpClks, hq.phase, hreq, Function.update_of_ne hne, hclk]
    exact hv
  by_cases hn : (s.req t).ckptlog = .none
  · rw [State.ckptlogReclaim, hn]
    exact h
  obtain ⟨hfr, hold⟩ : CkptFrame t s (s.ckptlogReclaim B t wb) ∧
      ∀ e ∈ (s.ckptlogReclaim B t wb).ckOld t,
        ((s.ckptlogReclaim B t wb).clks t).minCkptReclaimed ≤ (s.entries e).ckptSClk := by
    unfold State.ckptlogReclaim
    split
    · contradiction
    · exact ckptlogReclaimX_frame hl _
    · exact ckptlogReclaimX_frame hl _
    · exact ckptlogReclaimX_frame hl _
  -- what was noted in this round is noted by this reclamation
  have hmin : ∀ v, s.MinOk t v → s.qpClks.minCkptReclaimed ≤ v :=
    fun v hv => hv.resolve_right fun hv => hn hv.2.1
  have hround : s.InLive t → ∀ v, ((s.ckptlogReclaim B t wb).clks t).minCkptReclaimed ≤ v →
      (s.ckptlogReclaim B t wb).MinOk t v := by
    intro ht v hv
    refine Or.inr ⟨?_, ?_, hv⟩
    · rw [hq.phase]
      refine hr ht fun hnone => hn ?_
      rw [hnone]
      rfl
    · rw [hreq, Function.update_self]
  refine ⟨?_, fun r done hp t' ht' hd => ?_, fun t' ht' e he => ?_, fun t' ht' o ho => ?_⟩
  · rw [hq.qpClks]
    exact h.max
  · rw [hq.phase] at hp
    have hnone := h.trig r done hp t' (hlive ht') hd
    have hne : t' ≠ t := by
      rintro rfl
      rw [hnone] at hn
      exact hn rfl
    rw [hreq, Function.update_of_ne hne]
    exact hnone
  · by_cases hne : t' = t
    · subst hne
      rw [hfr.entries]
      exact hround (hlive ht') _ (hold e he)
    · obtain ⟨-, h2, h3⟩ := hfr.other t' hne
      rw [h2] at he
      rw [hfr.entries]
      exact hother t' hne h3 _ (h.old t' (hlive ht') e he)
  · rw [hfr.tombstoneClk]
    by_cases hne : t' = t
    · subst hne
      left
      rw [hq.qpClks]
      rcases hfr.free o ho with ho | ⟨e, he, htomb, rfl⟩
      · exact hmin _ (h.free t' (hlive ht') o ho)
      · rcases hf.clk_of_tomb hm htomb with hclk | hclk
        · rw [hclk]
          exact h.max
        · rw [hclk]
          exact hmin _ (h.old t' (hlive ht') e he)
    · obtain ⟨h1, -, h3⟩ := hfr.other t' hne
      rw [h1] at ho
      exact hother t' hne h3 _ (h.free t' (hlive ht') o ho)

/-- An entry of an object without a tombstone is enqueued. -/
theorem minCkpt_enq (h : MinCkpt s) (hf : FreeSets s) (hl : CkptLogs s) {x : CkptEntry α}
    {f : ℕ → ℕ} (hnew : ∀ e, s.tombstone e = true → (s.entries e).obj ≠ x.obj)
    (hfo : ∀ o ≠ x.obj, f o = s.tombstoneClk o) :
    MinCkpt { s.ckptlogEnq t x with tombstoneClk := f } := by
  refine { h with old := fun t' ht' e he => ?_, free := fun t' ht' o ho => ?_ }
  · have hlt := (hl.mem t' e (List.mem_append_left _ he)).1
    have hent : (s.ckptlogEnq t x).entries e = s.entries e := Function.update_of_ne (by omega) _ _
    show State.MinOk _ t' ((s.ckptlogEnq t x).entries e).ckptSClk
    rw [hent]
    exact h.old t' ht' e he
  · show State.MinOk _ t' (f o)
    obtain ⟨e, h1, h2, -⟩ := hf.tomb o (Or.inr ⟨t', ho⟩)
    rw [hfo o (h2 ▸ hnew e h1)]
    exact h.free t' ht' o ho

theorem minCkpt_markTombstone (h : MinCkpt s) (hm : Masters s) (hf : FreeSets s) (hl : CkptLogs s)
    (hc : Core B s t W []) {t' : ℕ} {w : WrtSet} (hw : w ∈ s.tvOld t') (hk : k ∈ w.copies)
    (hkind : (s.copies k).kind = .free) : MinCkpt (s.markTombstone t' w.wrtClk k) := by
  have hlt := (hc.member (List.mem_append_left _ hw) hk).1
  unfold State.markTombstone
  dsimp only
  split
  · exact h
  rename_i hst
  split
  · exact { minCkpt_enq (t := t') (x := ⟨(s.copies k).obj, w.wrtClk, (s.clks t').qp0, true, none⟩)
      (f := Function.update s.tombstoneClk (s.copies k).obj (s.clks t').qp0) h hf hl
      (fun e he => hm.ne_of_free hc hlt hkind hst he) fun o ho => Function.update_of_ne ho _ _ with }
  · exact { h with }

theorem minCkpt_checkpoint (h : MinCkpt s) (hm : Masters s) (hf : FreeSets s) (hl : CkptLogs s)
    (hc : Core B s t W []) {t' : ℕ} {w : WrtSet} (hs : s.Synced t') (hw : w ∈ s.tvNew t')
    (hk : k ∈ w.copies) (hlt : ltClock B w.wrtClk (s.clks t').qp0) (hn : s.NeedsCkpt B t' k) :
    MinCkpt (s.checkpoint t' w.wrtClk k) :=
  { minCkpt_enq (t := t') (x := ⟨(s.copies k).obj, w.wrtClk, (s.clks t').qp0, false,
      (s.copies k).content⟩) (f := s.tombstoneClk) h hf hl
      (fun _ he => hm.ne_of_needsCkpt hc hs hw hk hlt hn he) fun _ _ => rfl with }

/-- A step that leaves the checkpoint logs of the live threads alone, and sends no
request. -/
theorem MinCkpt.frame (h : MinCkpt s) (hmin : s'.qpClks.minCkptReclaimed = s.qpClks.minCkptReclaimed)
    (hphase : s'.phase = s.phase) (hentries : s'.entries = s.entries)
    (hclk : s'.tombstoneClk = s.tombstoneClk) (hlive : ∀ t, s'.InLive t → s.InLive t ∧
      s'.ckOld t = s.ckOld t ∧ s'.ckFree t = s.ckFree t ∧ s'.clks t = s.clks t ∧
      (s.req t = .none → s'.req t = .none) ∧
      ((s.req t).ckptlog = .none → (s'.req t).ckptlog = .none)) : MinCkpt s' := by
  have hok : ∀ t v, s'.InLive t → s.MinOk t v → s'.MinOk t v := by
    rintro t v ht (hv | ⟨h1, h2, h3⟩)
    · exact Or.inl (hmin ▸ hv)
    · obtain ⟨-, -, -, hclks, -, hreq⟩ := hlive t ht
      refine Or.inr ⟨?_, hreq h2, hclks ▸ h3⟩
      rw [hphase]
      exact h1
  refine ⟨hmin ▸ h.max, fun r done hp t ht hd => ?_, fun t ht e he => ?_, fun t ht o ho => ?_⟩
  · obtain ⟨ht', -, -, -, hreq, -⟩ := hlive t ht
    exact hreq (h.trig r done (hphase ▸ hp) t ht' hd)
  · obtain ⟨ht', hold, -⟩ := hlive t ht
    rw [hentries]
    exact hok t _ ht (h.old t ht' e (hold ▸ he))
  · obtain ⟨ht', -, hfree, -⟩ := hlive t ht
    rw [hclk]
    exact hok t _ ht (h.free t ht' o (hfree ▸ ho))

theorem minCkpt_tvServed (h : MinCkpt s) (t : ℕ) : MinCkpt (s.tvServed t) := by
  refine h.frame rfl rfl rfl rfl fun t' ht' => ⟨ht', rfl, rfl, rfl, fun hn => ?_, fun hn => ?_⟩
  · show Function.update s.req t _ t' = .none
    by_cases he : t' = t
    · rw [he, Function.update_self, ← he, hn]
      rfl
    · rw [Function.update_of_ne he]
      exact hn
  · show (Function.update s.req t _ t').ckptlog = .none
    by_cases he : t' = t
    · rw [he, Function.update_self, ← he]
      exact hn
    · rw [Function.update_of_ne he]
      exact hn

/-- The QP thread goes on without forgetting a request that it has sent. -/
theorem MinCkpt.move (h : MinCkpt s) {p : Phase} (hsent : ∀ t, s.phase.Sent t → p.Sent t)
    (htrig : ∀ r done, p = .trigger r done → ∀ t, s.InLive t → t ∉ done → s.req t = .none) :
    MinCkpt { s with phase := p } :=
  { h with
    trig := htrig
    old := fun t ht e he => (h.old t ht e he).imp_right fun hv => ⟨hsent t hv.1, hv.2⟩
    free := fun t ht o ho => (h.free t ht o ho).imp_right fun hv => ⟨hsent t hv.1, hv.2⟩ }

/-- A running minimum is bounded by where it starts and by what it meets. -/
theorem le_foldl_min {p : ℕ → Prop} [DecidablePred p] {g : ℕ → ℕ} {v : ℕ} {ts : List ℕ} :
    ∀ {m : ℕ}, v ≤ ts.foldl (fun m t => if p t then min m (g t) else m) m ↔
      v ≤ m ∧ ∀ t ∈ ts, p t → v ≤ g t := by
  induction ts with
  | nil => simp
  | cons t ts ih =>
    intro m
    rw [List.foldl_cons, ih, List.forall_mem_cons]
    by_cases ht : p t
    · rw [if_pos ht, Nat.le_min]
      tauto
    · rw [if_neg ht]
      tauto

theorem minCkptReclaimed_le (s : State α β) :
    s.minCkptReclaimed ≤ s.qpClks.minCkptReclaimed ∧
      ∀ t ∈ s.tids, s.InLive t → s.minCkptReclaimed ≤ (s.clks t).minCkptReclaimed :=
  le_foldl_min.mp (le_refl s.minCkptReclaimed)

theorem minCkpt_startBarrier (h : MinCkpt s) (ht : TxInv B s) (r : Reclaim) :
    MinCkpt { s with
      phase := .barrier r
      qpClks := { s.qpClks with minCkptReclaimed := s.minCkptReclaimed } } := by
  obtain ⟨hle, hlive⟩ := minCkptReclaimed_le s
  have hok : ∀ t, s.InLive t → ∀ v, s.MinOk t v → s.minCkptReclaimed ≤ v := by
    rintro t hl v (hv | ⟨-, -, hv⟩)
    · exact le_trans hle hv
    · exact le_trans (hlive t (ht.mem_tids hl) hl) hv
  refine ⟨le_trans hle h.max, fun r done hp => (by contradiction), fun t hl e he => Or.inl ?_,
    fun t hl o ho => Or.inl ?_⟩
  · exact hok t hl _ (h.old t hl e he)
  · exact hok t hl _ (h.free t hl o ho)

theorem minCkpt_trigger (h : MinCkpt s) {r : Reclaim} {done : List ℕ}
    (hp : s.phase = .trigger r done) (hd : t ∉ done) :
    MinCkpt { s.sendRequest t r with phase := .trigger r (t :: done) } := by
  have hok : ∀ t' v, s.MinOk t' v →
      State.MinOk { s.sendRequest t r with phase := .trigger r (t :: done) } t' v := by
    rintro t' v (hv | ⟨h1, h2, h3⟩)
    · exact Or.inl hv
    · rw [hp] at h1
      have hne : t' ≠ t := by
        rintro rfl
        exact hd h1
      refine Or.inr ⟨List.mem_cons_of_mem _ h1, ?_, ?_⟩
      · show (Function.update s.req t r t').ckptlog = .none
        rw [Function.update_of_ne hne]
        exact h2
      · show (Function.update s.clks t s.qpClks t').minCkptReclaimed ≤ v
        rw [Function.update_of_ne hne]
        exact h3
  refine ⟨h.max, fun r' done' hp' t' hl hd' => ?_, fun t' hl e he => hok t' _ (h.old t' hl e he),
    fun t' hl o ho => hok t' _ (h.free t' hl o ho)⟩
  rw [Phase.trigger.injEq] at hp'
  obtain ⟨rfl, rfl⟩ := hp'
  rw [List.mem_cons, not_or] at hd'
  show Function.update s.req t r t' = .none
  rw [Function.update_of_ne hd'.1]
  exact h.trig r done hp t' hl hd'.2

/-- Outside of a round the free set of a live thread holds nothing that is older than the
minimum, so `qp_cleanup_ckptlogs` deallocates nothing. -/
theorem cleanup_deallocs_nothing (h : MinCkpt s) {clk : ℕ} (hp : s.phase = .waiting clk)
    (hl : s.InLive t) :
    s.deallocs B t (correctQpClock B s.qpClks.minCkptReclaimed) = [] := by
  refine List.eq_nil_iff_forall_not_mem.mpr fun o ho => ?_
  obtain ⟨hfree, hlt⟩ := mem_deallocs.mp ho
  have hle : s.qpClks.minCkptReclaimed ≤ s.tombstoneClk o :=
    (h.free t hl o hfree).resolve_right fun hv => by
      rw [hp] at hv
      exact hv.1
  rw [ltClock_iff, correctQpClock] at hlt
  omega

/-! ### The steps -/

/-- The three together. -/
structure Freeing (s : State α β) : Prop where
  logs : CkptLogs s
  sets : FreeSets s
  min : MinCkpt s

theorem freeing_tvlogReclaim (h : Freeing s) (hm : Masters s) (hc : Core B s t W []) {t' : ℕ}
    (hs : s.Synced t') (hf : (s.req t').tvlog ≠ .none → s.FreesLast t') (ht : t' ∈ s.tids) :
    Freeing (s.tvlogReclaim B t') := by
  refine (hm.tvlogReclaim_rule (P := fun s₁ => Freeing s₁ ∧ t' ∈ s₁.tids) hc hs hf
    ?_ ?_ ?_ ?_ ?_ ?_ ⟨h, ht⟩).1.1
  · rintro s₁ w k ⟨h₁, ht₁⟩ hm₁ hc₁ hs₁ hw hk hkind
    refine ⟨⟨ckptLogs_markTombstone h₁.logs hs₁ ht₁ _ _,
      freeSets_markTombstone h₁.sets hm₁ hc₁ hw hk hkind,
      minCkpt_markTombstone h₁.min hm₁ h₁.sets h₁.logs hc₁ hw hk hkind⟩, ?_⟩
    rw [(quiet_markTombstone (Quiet.refl s₁) _ _).tids]
    exact ht₁
  · exact fun s₁ w rest h₁ _ => ⟨⟨{ h₁.1.logs with }, { h₁.1.sets with }, { h₁.1.min with }⟩, h₁.2⟩
  · exact fun s₁ h₁ => ⟨⟨{ h₁.1.logs with }, { h₁.1.sets with }, { h₁.1.min with }⟩, h₁.2⟩
  · rintro s₁ w k ⟨h₁, ht₁⟩ hm₁ hc₁ hs₁ hw hk hlt hn
    exact ⟨⟨ckptLogs_checkpoint h₁.logs hs₁ ht₁ _ _,
      freeSets_checkpoint h₁.sets hm₁ hc₁ hs₁ hw hk hlt hn,
      minCkpt_checkpoint h₁.min hm₁ h₁.sets h₁.logs hc₁ hs₁ hw hk hlt hn⟩, ht₁⟩
  · exact fun s₁ w rest h₁ _ => ⟨⟨{ h₁.1.logs with }, { h₁.1.sets with }, { h₁.1.min with }⟩, h₁.2⟩
  · exact fun s₁ h₁ => ⟨⟨{ h₁.1.logs with }, { h₁.1.sets with }, minCkpt_tvServed h₁.1.min t'⟩,
      h₁.2⟩

theorem freeSets_ckptlogReclaim (h : FreeSets s) (hm : Masters s) (hl : CkptLogs s) (t wb : ℕ) :
    FreeSets (s.ckptlogReclaim B t wb) := by
  refine (ckptlogReclaim_rule (P := fun s₁ => FreeSets s₁ ∧ Masters s₁ ∧ CkptLogs s₁)
    (fun budget => ?_) ⟨h, hm, hl⟩).1
  refine ckptlogReclaimX_rule (P := fun s₁ => FreeSets s₁ ∧ Masters s₁ ∧ CkptLogs s₁)
    ?_ ?_ ?_ ?_ ?_ ⟨h, hm, hl⟩
  · rintro s₁ e rest ⟨h₁, hm₁, hl₁⟩ he
    exact ⟨freeSets_dropEntry h₁ hm₁ hl₁ he, { hm₁ with }, ckptLogs_dropEntry hl₁ he⟩
  · rintro s₁ ⟨h₁, hm₁, hl₁⟩ -
    unfold State.noteMinCkpt
    split
    · exact ⟨h₁, hm₁, hl₁⟩
    · exact ⟨{ h₁ with }, { hm₁ with }, { hl₁ with }⟩
  · rintro s₁ e rest ⟨h₁, hm₁, hl₁⟩ he _ hcur htomb
    refine ⟨{ h₁ with gone := fun o ho t' e' he' => ?_ },
      { masters_writeback hm₁ hcur htomb with },
      ckptLogs_passEntry (s := s₁.writeback e) { hl₁ with } he⟩
    rw [ckptlog_passEntry (s := s₁.writeback e) he] at he'
    exact h₁.gone o ho t' e' he'
  · rintro s₁ e rest ⟨h₁, hm₁, hl₁⟩ he _ _
    refine ⟨{ h₁ with gone := fun o ho t' e' he' => ?_ }, { hm₁ with }, ckptLogs_passEntry hl₁ he⟩
    rw [ckptlog_passEntry he] at he'
    exact h₁.gone o ho t' e' he'
  · exact fun s₁ h₁ => ⟨{ h₁.1 with }, { h₁.2.1 with }, { h₁.2.2 with }⟩

theorem freeing_ckptlogReclaim (h : Freeing s) (hm : Masters s) {wb : ℕ}
    (hr : s.InLive t → s.req t ≠ .none → s.phase.Sent t) :
    Freeing (s.ckptlogReclaim B t wb) :=
  ⟨ckptLogs_ckptlogReclaim h.logs t wb, freeSets_ckptlogReclaim h.sets hm h.logs t wb,
    minCkpt_ckptlogReclaim h.min hm h.sets h.logs hr⟩

/-- A thread that is not live leaves the minimum alone. -/
theorem minCkpt_of_dead (h : MinCkpt s) (hl : ¬ s.InLive t) {r : ℕ → Reclaim} {q : ℕ → SysClks}
    (hr : ∀ t' ≠ t, r t' = s.req t') (hq : ∀ t' ≠ t, q t' = s.clks t') :
    MinCkpt { s with req := r, clks := q } := by
  refine h.frame rfl rfl rfl rfl fun t' ht' => ?_
  have hne : t' ≠ t := by
    rintro rfl
    exact hl ht'
  refine ⟨ht', rfl, rfl, hq t' hne, fun hn => ?_, fun hn => ?_⟩
  · exact (hr t' hne).trans hn
  · show (r t').ckptlog = .none
    rw [hr t' hne]
    exact hn

theorem freeing_reapLogs (h : Freeing s) (hm : Masters s) (hc : Core B s 0 0 [])
    (hf : s.FreesLast t) (hl : ¬ s.InLive t) (ht : t ∈ s.tids) :
    Freeing (s.reapLogs B t) ∧ Masters (s.reapLogs B t) := by
  have hlogs := hm.reapLogs_rule (P := fun s₁ => Freeing s₁ ∧ ¬ s₁.InLive t ∧ t ∈ s₁.tids) hc hf
    ?_ ?_ ?_ ?_
  · exact ⟨hlogs.1.1, hlogs.2⟩
  · refine ⟨⟨{ h.logs with }, { h.sets with }, ?_⟩, hl, ht⟩
    exact { minCkpt_of_dead (r := s.req) (q := Function.update s.clks t s.qpClks) h.min hl
      (fun _ _ => rfl) fun t' hne => Function.update_of_ne hne _ _ with }
  · rintro s₁ r ⟨h₁, hl₁, ht₁⟩
    refine ⟨⟨{ h₁.logs with }, { h₁.sets with }, ?_⟩, hl₁, ht₁⟩
    exact { minCkpt_of_dead (r := Function.update s₁.req t r) (q := s₁.clks) h₁.min hl₁
      (fun t' hne => Function.update_of_ne hne _ _) fun _ _ => rfl with }
  · rintro s₁ ⟨h₁, hl₁, ht₁⟩ hm₁ hc₁ hs₁ hf₁
    have hq := quiet_tvlogReclaim (B := B) s₁ t
    refine ⟨freeing_tvlogReclaim h₁ hm₁ hc₁ hs₁ (fun _ => hf₁) ht₁, ?_, hq.tids ▸ ht₁⟩
    rw [State.InLive, hq.life]
    exact hl₁
  · rintro s₁ ⟨h₁, hl₁, ht₁⟩ hm₁
    have hq := quiet_ckptlogReclaim (B := B) s₁ t 0
    refine ⟨freeing_ckptlogReclaim h₁ hm₁ fun ht' => absurd ht' hl₁, ?_, hq.tids ▸ ht₁⟩
    rw [State.InLive, hq.life]
    exact hl₁

theorem minCkpt_destroyLogs (h : MinCkpt s) (hl : ¬ s.InLive t) : MinCkpt (s.destroyLogs B t) := by
  refine h.frame rfl rfl rfl rfl fun t' ht' => ?_
  have hne : t' ≠ t := by
    rintro rfl
    exact hl ht'
  exact ⟨ht', rfl, Function.update_of_ne hne _ _, rfl, id, id⟩

theorem freeing_destroyLogs (h : Freeing s) (hm : Masters s) (hl : ¬ s.InLive t)
    (hg : s.Gated B t) : Freeing (s.destroyLogs B t) :=
  ⟨{ h.logs with }, freeSets_destroyLogs h.sets hm h.logs hg, minCkpt_destroyLogs h.min hl⟩

/-- A thread moves on in its life, but not into the live list. -/
theorem minCkpt_life (h : MinCkpt s) {l : Life}
    (hl : s.InLive t ∨ ¬ (l = .live ∨ l = .finishing ∨ l = .flushed)) :
    MinCkpt { s with life := Function.update s.life t l } := by
  exact h.frame rfl rfl rfl rfl fun t' ht' => ⟨inLive_of_update hl ht', rfl, rfl, rfl, id, id⟩

theorem freeing_life (h : Freeing s) {l : Life}
    (hl : s.InLive t ∨ ¬ (l = .live ∨ l = .finishing ∨ l = .flushed)) :
    Freeing { s with life := Function.update s.life t l } :=
  ⟨{ h.logs with }, { h.sets with }, minCkpt_life h.min hl⟩

/-- A registered thread has begun its life. -/
theorem registered_step {op : Op α β} (h : ∀ t ∈ s.tids, s.life t ≠ .fresh)
    (hs : step B s op = some s') : ∀ t ∈ s'.tids, s'.life t ≠ .fresh := by
  have hupdate : ∀ {t : ℕ} {l : Life}, l ≠ .fresh → ∀ t' ∈ s.tids,
      Function.update s.life t l t' ≠ .fresh := by
    intro t l hl t' ht'
    by_cases he : t' = t
    · rw [he, Function.update_self]
      exact hl
    · rw [Function.update_of_ne he]
      exact h t' ht'
  cases Step.of_step hs with
  | threadInit t =>
    intro t' ht'
    by_cases he : t' = t
    · show Function.update s.life t .live t' ≠ .fresh
      rw [he, Function.update_self]
      simp
    · exact hupdate (by simp) t' ((List.mem_cons.mp ht').resolve_left he)
  | endTx t v info =>
    have hsame := sameThreads_tvlogCommit s t v info
    show ∀ t' ∈ (s.tvlogCommit t v info).tids, (s.tvlogCommit t v info).life t' ≠ .fresh
    rw [hsame.tids, hsame.life]
    exact h
  | tvlogReclaim t =>
    rw [(quiet_tvlogReclaim s t).tids, (quiet_tvlogReclaim s t).life]
    exact h
  | ckptlogReclaim t wb =>
    rw [(quiet_ckptlogReclaim s t wb).tids, (quiet_ckptlogReclaim s t wb).life]
    exact h
  | finishStart t => exact hupdate (by simp)
  | finishOplog t => exact hupdate (by simp)
  | deregister t => exact hupdate (by simp)
  | zombinize t =>
    unfold State.zombinize
    split
    · exact hupdate (by simp)
    · exact hupdate (by simp)
  | threadFree t =>
    unfold State.threadFree
    dsimp only
    split
    · exact h
    · exact h
  | reap t r done =>
    have hf := reapThread_frame s B t
    intro t' ht'
    change t' ∈ (s.reapThread B t).tids at ht'
    rw [hf.tids] at ht'
    show (s.reapThread B t).life t' ≠ .fresh
    by_cases he : t' = t
    · subst he
      rcases hf.self with hl | hl
      · rw [hl]
        exact h t' ht'
      · rw [hl]
        simp
    · rw [hf.life t' he]
      exact h t' ht'
  | publish r =>
    unfold State.publish
    exact h
  | _ => exact h

theorem freeing_threadInit (h : Freeing s) (hreg : ∀ t ∈ s.tids, s.life t ≠ .fresh)
    (hf : s.life t = .fresh) (hp : ¬ s.LiveLocked) : Freeing (s.threadInit t) := by
  have hnew : t ∉ s.tids := fun ht => hreg t ht hf
  have hold : s.ckOld t = [] := List.eq_nil_iff_forall_not_mem.mpr fun e he =>
    hnew (h.logs.mem t e (List.mem_append_left _ he)).2.2
  have hfree : s.ckFree t = [] := List.eq_nil_iff_forall_not_mem.mpr fun o ho =>
    hnew (h.sets.reg t o ho)
  have hok : ∀ t' v, t' ≠ t → s.MinOk t' v → (s.threadInit t).MinOk t' v := by
    rintro t' v hne (hv | ⟨h1, h2, h3⟩)
    · exact Or.inl hv
    · refine Or.inr ⟨h1, ?_, ?_⟩
      · show (Function.update s.req t _ t').ckptlog = .none
        rw [Function.update_of_ne hne]
        exact h2
      · show (Function.update s.clks t _ t').minCkptReclaimed ≤ v
        rw [Function.update_of_ne hne]
        exact h3
  refine ⟨?_, ?_, h.min.max, fun r done hp' => ?_, fun t' ht' e he => ?_, fun t' ht' o ho => ?_⟩
  · refine { h.logs with mem := fun t' e he => ?_ }
    obtain ⟨h1, h2, h3⟩ := h.logs.mem t' e he
    exact ⟨h1, h2, List.mem_cons_of_mem _ h3⟩
  · exact { h.sets with reg := fun t' o ho => List.mem_cons_of_mem _ (h.sets.reg t' o ho) }
  · exact absurd hp' (not_trigger_of_unlocked hp r done)
  · by_cases hne : t' = t
    · change e ∈ s.ckOld t' at he
      rw [hne, hold] at he
      contradiction
    · exact hok t' _ hne (h.min.old t' (inLive_of_threadInit hne ht') e he)
  · by_cases hne : t' = t
    · change o ∈ s.ckFree t' at ho
      rw [hne, hfree] at ho
      contradiction
    · exact hok t' _ hne (h.min.free t' (inLive_of_threadInit hne ht') o ho)

theorem freeing_step {op : Op α β} (h : Freeing s) (hreg : ∀ t ∈ s.tids, s.life t ≠ .fresh)
    (hm : Masters s) (hi : Inv B s) (hok : FreesLast s op) (hg : DestroyGated B s op)
    (hs : step B s op = some s') : Freeing s' := by
  have hlogs := ckptLogs_step h.logs hi hs
  -- the QP thread goes on in its round, or begins or ends one
  have hround : ∀ {p : Phase}, (∀ t, p.Sent t) → (∀ r done, p ≠ .trigger r done) →
      MinCkpt { s with phase := p } :=
    fun h1 h2 => h.min.move (fun t _ => h1 t) fun r done hn => absurd hn (h2 r done)
  have hidle : ∀ {p : Phase}, (∀ t, ¬ s.phase.Sent t) → (∀ r done, p ≠ .trigger r done) →
      MinCkpt { s with phase := p } :=
    fun h1 h2 => h.min.move (fun t ht => absurd ht (h1 t)) fun r done hn => absurd hn (h2 r done)
  cases Step.of_step hs with
  | threadInit t hf hp => exact freeing_threadInit h hreg hf hp
  | endTx t v info =>
    have hc : FreeSets (s.tvlogCommit t v info) ∧ MinCkpt (s.tvlogCommit t v info) := by
      refine foldl_commitCopy_rule (P := fun s₁ => FreeSets s₁ ∧ MinCkpt s₁) (fun s₁ k h₁ _ => ?_)
        ⟨{ h.sets with }, { h.min with }⟩
      unfold State.commitCopy
      split
      · exact ⟨{ h₁.1 with }, { h₁.2 with }⟩
      · split <;> exact ⟨{ h₁.1 with }, { h₁.2 with }⟩
    exact ⟨hlogs, { hc.1 with }, { hc.2 with }⟩
  | tvlogReclaim t hr =>
    rcases hi.synced_or_idle hr with hsy | he
    · exact freeing_tvlogReclaim h hm hi.core hsy hok (hi.tx.mem_tids hr.inLive)
    · rw [he]
      exact h
  | ckptlogReclaim t wb =>
    refine freeing_ckptlogReclaim h hm fun hl hr => ?_
    obtain ⟨-, r, hact, -⟩ := hi.req t hl hr
    rcases hp : s.phase with _ | clk | _ | ⟨r', done⟩ | _ | _ | _ | _
    · rw [hp] at hact
      contradiction
    · rw [hp] at hact
      contradiction
    · rw [hp] at hact
      contradiction
    · by_contra hd
      exact hr (h.min.trig r' done hp t hl hd)
    · trivial
    · trivial
    · trivial
    · rw [hp] at hact
      contradiction
  | finishStart t hl => exact freeing_life h (Or.inl (Or.inl hl))
  | finishOplog t hl =>
    exact ⟨hlogs, { h.sets with }, { minCkpt_life h.min (Or.inl (Or.inr (Or.inl hl))) with }⟩
  | deregister t =>
    exact ⟨hlogs, { h.sets with }, { minCkpt_life (t := t) (l := .limbo) h.min
      (Or.inr (by simp)) with }⟩
  | zombinize t hl =>
    have hdead : ¬ s.InLive t := by
      rw [State.InLive, hl]
      simp
    unfold State.zombinize
    split
    · rename_i hempty
      exact freeing_life (freeing_destroyLogs h hm hdead (hg hempty)) (Or.inr (by simp))
    · exact freeing_life h (Or.inr (by simp))
  | threadFree t hl =>
    have hdead : ¬ s.InLive t := by
      rw [State.InLive]
      rcases hl with hl | hl <;> rw [hl] <;> simp
    have hfree : Freeing { s with dead := Function.update s.dead t true } :=
      ⟨{ h.logs with }, { h.sets with }, { h.min with }⟩
    unfold State.threadFree
    dsimp only
    split
    · rename_i hempty
      exact freeing_destroyLogs hfree { hm with } hdead (hg hempty)
    · exact hfree
  | cleanup t clk hp hl =>
    have hnone := cleanup_deallocs_nothing (B := B) h.min hp hl
    refine ⟨hlogs, freeSets_cleanup h.sets fun o ho => ?_, ?_⟩
    · rw [hnone] at ho
      contradiction
    · refine { h.min with free := fun t' ht' o ho => h.min.free t' ht' o ?_ }
      change o ∈ Function.update s.ckFree t _ t' at ho
      by_cases he : t' = t
      · rw [he, Function.update_self, List.mem_filter] at ho
        rw [he]
        exact ho.1
      · rw [Function.update_of_ne he] at ho
        exact ho
  | trigger t r done hp _ hd => exact ⟨hlogs, { h.sets with }, minCkpt_trigger h.min hp hd⟩
  | startBarrier r => exact ⟨hlogs, { h.sets with }, minCkpt_startBarrier h.min hi.tx r⟩
  | reap t r done hp hz =>
    have hdead : ¬ s.InLive t := by
      rw [State.InLive, hz]
      simp
    obtain ⟨hf, hm'⟩ := freeing_reapLogs h hm hi.core hok hdead (hi.tx.reg t (by rw [hz]; simp))
    have hdead' : ¬ (s.reapLogs B t).InLive t := by
      rw [State.InLive, (reapLogs_frame s B t).1.life]
      exact hdead
    have hreap : Freeing (s.reapThread B t) := by
      refine reapThread_rule (P := Freeing) hf (fun hempty => ?_) fun hempty => ?_
      · exact freeing_destroyLogs hf hm' hdead' (hg hempty)
      · exact freeing_life (freeing_destroyLogs hf hm' hdead' (hg hempty)) (Or.inr (by simp))
    refine ⟨hlogs, { hreap.sets with }, hreap.min.move (fun t' ht' => ?_) fun r' done' hp' => ?_⟩
    · trivial
    · contradiction
  | startTrigger hp =>
    refine ⟨hlogs, { h.sets with }, { h.min.move (p := .trigger s.qpReq []) (fun t ht => ?_)
      fun r done hr t hl _ => ?_ with }⟩
    · rw [hp] at ht
      exact ht.elim
    · exact hi.req.idle (by rw [hp]; rfl) hl
  | publish r hp =>
    have hmin := hidle (p := .idle) (fun t => by rw [hp]; exact id) (by simp)
    unfold State.publish
    split
    · exact ⟨{ h.logs with }, { h.sets with }, { hmin with }⟩
    · exact ⟨{ h.logs with }, { h.sets with }, { hmin with }⟩
  | detect v hp =>
    have hmin := hidle (p := .waiting v) (fun t => by rw [hp]; exact id) (by simp)
    exact ⟨hlogs, { h.sets with }, { hmin with }⟩
  | detected clk hp =>
    have hmin := hidle (p := .detected) (fun t => by rw [hp]; exact id) (by simp)
    exact ⟨hlogs, { h.sets with }, { hmin with }⟩
  | skip hp =>
    have hmin := hidle (p := .idle) (fun t => by rw [hp]; exact id) (by simp)
    exact ⟨hlogs, { h.sets with }, hmin⟩
  | endTrigger r => exact ⟨hlogs, { h.sets with }, hround (fun _ => trivial) (by simp)⟩
  | reapLock r => exact ⟨hlogs, { h.sets with }, hround (fun _ => trivial) (by simp)⟩
  | reapRetry r => exact ⟨hlogs, { h.sets with }, hround (fun _ => trivial) (by simp)⟩
  | endReap r => exact ⟨hlogs, { h.sets with }, hround (fun _ => trivial) (by simp)⟩
  | _ => exact ⟨hlogs, { h.sets with }, { h.min with }⟩

/-- Free records come last, and logs are destroyed behind the gate. -/
def FreesGated (B : ℕ) (s : State α β) (op : Op α β) : Prop :=
  FreesLast s op ∧ DestroyGated B s op

instance (s : State α β) (op : Op α β) : Decidable (FreesGated B s op) :=
  inferInstanceAs (Decidable (_ ∧ _))

theorem freeing_initial (org : ℕ → α) : Freeing (initial org : State α β) := by
  refine ⟨ckptLogs_initial org, ⟨fun o => Or.inl rfl, ?_, ?_, fun t => List.nodup_nil, ?_,
    List.nodup_nil, ?_, ?_⟩, ⟨le_refl _, ?_, ?_, ?_⟩⟩
  · rintro o (ho | ⟨t, ho⟩)
    · contradiction
    · contradiction
  · intro t o ho
    contradiction
  · intro t t' o ho
    contradiction
  · intro t o ho
    contradiction
  · intro o ho
    contradiction
  · intro r done hp
    contradiction
  · intro t ht e he
    contradiction
  · intro t ht o ho
    contradiction

/-- In every run in which free records are processed after the newest version of their
object was detached, and a checkpoint log is destroyed only when the tombstones in its
free set are older than every entry left in a checkpoint log, an original master is
deallocated at most once, and no checkpoint log holds an entry of it from then on. -/
theorem masters_freed_safely {org : ℕ → α} (hr : Reachable B org (FreesGated B) s) :
    s.freed.Nodup ∧
      ∀ o ∈ s.freed, ∀ t, ∀ e ∈ s.ckOld t ++ s.ckNew t, (s.entries e).obj ≠ o := by
  have h : Inv B s ∧ Masters s ∧ Freeing s ∧ ∀ t ∈ s.tids, s.life t ≠ .fresh := by
    refine Run.Reach.invariant (I := fun s => Inv B s ∧ Masters s ∧ Freeing s ∧
      ∀ t ∈ s.tids, s.life t ≠ .fresh) ?_ ?_ hr
    · rintro s rfl
      exact ⟨inv_initial org, masters_initial org, freeing_initial org, fun t ht => by contradiction⟩
    · rintro s op s' ⟨hi, hm, hf, hreg⟩ hok hs
      exact ⟨inv_step hi hs, masters_step hm hi hok.1 hs, freeing_step hf hreg hm hi hok.1 hok.2 hs,
        registered_step hreg hs⟩
  exact ⟨h.2.2.1.sets.once, h.2.2.1.sets.gone⟩

/-- The thread 1 frees the object 5 and becomes a zombie, and the object is deallocated
after its tombstone was reaped. -/
theorem masters_freed_safely_zombie : ∃ s : State ℕ ℕ,
    Reachable 0 (fun _ => 0) (FreesGated 0) s ∧ s.freed = [5] ∧ s.freed.Nodup ∧
      ∀ o ∈ s.freed, ∀ t, ∀ e ∈ s.ckOld t ++ s.ckNew t, (s.entries e).obj ≠ o := by
  have hd : (Run.exec (step 0) (FreesGated 0) (initial fun _ => 0 : State ℕ ℕ)
      ([.threadInit 0, .threadInit 1, .begin 1 10, .lock 1 5 .const, .free 1 5, .endTx 1 20 7,
        .finishStart 1, .finishOplog 1, .deregister 1, .zombinize 1] ++
        roundOfZombie 40 ⟨.bestEffort, .none⟩ ++ roundOfZombie 50 ⟨.bestEffort, .none⟩ ++
        roundOfZombie 60 ⟨.bestEffort, .none⟩ ++ roundOfZombie 70 ⟨.bestEffort, .none⟩ ++
        roundOfZombie 80 ⟨.bestEffort, .none⟩)).map (fun s => decide (s.freed = [5])) =
      some true := by
    decide +kernel
  obtain ⟨s, hs, hp⟩ := Option.map_eq_some_iff.mp hd
  have hr : Reachable 0 (fun _ => 0) (FreesGated 0) s := .of_exec (.init rfl) hs
  exact ⟨s, hr, of_decide_eq_true hp, masters_freed_safely hr⟩

/-- The thread 0 writes the object 5, and the version is checkpointed and written back.  The
thread 1 frees the object and becomes a zombie.  Its log is reaped in rounds that request
nothing for checkpoint logs, so the object is deallocated while its entry is still in the
checkpoint log of the thread 0. -/
theorem freed_with_entry_left : ∃ s : State ℕ ℕ, Reachable 0 (fun _ => 0) Run.any s ∧
    5 ∈ s.freed ∧ 0 ∈ s.ckOld 0 ++ s.ckNew 0 ∧ (s.entries 0).obj = 5 := by
  have hd : (Run.exec (step 0) Run.any (initial fun _ => 0 : State ℕ ℕ)
      ([.threadInit 0, .threadInit 1, .begin 0 10, .lock 0 5 .copy, .endTx 0 20 7] ++
        roundOfTwo 40 ⟨.ckpt, .none⟩ ++ roundOfTwo 50 ⟨.bestEffort, .none⟩ ++
        roundOfTwo 60 ⟨.bestEffort, .writebackAll⟩ ++
        [.begin 1 70, .lock 1 5 .const, .free 1 5, .endTx 1 80 8,
          .finishStart 1, .finishOplog 1, .deregister 1, .zombinize 1] ++
        roundOfZombie 90 ⟨.bestEffort, .none⟩ ++ roundOfZombie 100 ⟨.bestEffort, .none⟩ ++
        roundOfZombie 110 ⟨.bestEffort, .none⟩ ++ roundOfZombie 120 ⟨.bestEffort, .none⟩ ++
        roundOfZombie 130 ⟨.bestEffort, .none⟩)).map (fun s =>
        decide (5 ∈ s.freed ∧ 0 ∈ s.ckOld 0 ++ s.ckNew 0 ∧ (s.entries 0).obj = 5)) =
      some true := by
    decide +kernel
  exact Run.Reach.exists_of_exec (.init rfl) hd

/-- Where a free record is processed before the version of the thread 0 was checkpointed, the
gate alone does not help: the entry of the version is newer than the tombstone. -/
theorem freed_with_newer_entry : ∃ s : State ℕ ℕ,
    Reachable 0 (fun _ => 0) (DestroyGated 0) s ∧
    5 ∈ s.freed ∧ 1 ∈ s.ckOld 0 ++ s.ckNew 0 ∧ (s.entries 1).obj = 5 := by
  have hd : (Run.exec (step 0) (DestroyGated 0) (initial fun _ => 0 : State ℕ ℕ)
      ([.threadInit 0, .threadInit 1, .begin 0 10, .lock 0 5 .copy, .endTx 0 20 7,
        .begin 1 30, .lock 1 5 .const, .free 1 5, .endTx 1 40 8] ++
        roundOfTwo 50 ⟨.bestEffort, .none⟩ ++ roundOfTwo 60 ⟨.bestEffort, .none⟩ ++
        roundOfTwo 70 ⟨.ckpt, .none⟩ ++
        [.finishStart 1, .finishOplog 1, .deregister 1, .zombinize 1] ++
        roundOfZombie 90 ⟨.bestEffort, .none⟩ ++ roundOfZombie 100 ⟨.bestEffort, .none⟩ ++
        roundOfZombie 110 ⟨.bestEffort, .none⟩)).map (fun s =>
        decide (5 ∈ s.freed ∧ 1 ∈ s.ckOld 0 ++ s.ckNew 0 ∧ (s.entries 1).obj = 5)) =
      some true := by
    decide +kernel
  exact Run.Reach.exists_of_exec (.init rfl) hd

end TimeStone.System
