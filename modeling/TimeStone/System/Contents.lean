/-
What the memory of a master holds.

An entry of a checkpoint log has the write clock and the content of a version of its
object, unless it is a tombstone, and an original master that was not given back has
those of the version that was written back last, or its first content.  The copies of
committed versions never change.
-/
import TimeStone.System.Inv

namespace TimeStone.System

variable {α β : Type*} {org : ℕ → α} {B t W k : ℕ} {s s' : State α β} {c : List ℕ}

/-- The contents of entries and original masters. -/
structure Contents (org : ℕ → α) (s : State α β) : Prop where
  tomb : ∀ e < s.numEntries, (s.entries e).isTomb = true → s.tombstone e = true
  entry : ∀ e < s.numEntries, (s.entries e).isTomb = true ∨
    ∃ j ∈ s.hist (s.entries e).obj, (s.copies j).wrtClk = (s.entries e).wrtClk ∧
      (s.copies j).content = (s.entries e).content
  master : ∀ o ∉ s.freed, s.masterWrt o = 0 ∧ s.master o = some (org o) ∨
    ∃ j ∈ s.hist o, (s.copies j).wrtClk = s.masterWrt o ∧ (s.copies j).content = s.master o
  pos : ∀ o, ∀ k ∈ s.hist o, 0 < (s.copies k).wrtClk

/-- The current master of `o` holds the version `j`. -/
def State.Holds (s : State α β) (o j : ℕ) : Prop :=
  s.curWrt o = (s.copies j).wrtClk ∧ s.content (s.curLoc o) = (s.copies j).content

/-- The current master of an object holds its first content, a version of it, or is a
tombstone. -/
theorem Contents.cur (h : Contents org s) (hc : Core B s t W c) {o : ℕ} (ho : o ∉ s.freed) :
    (s.curWrt o = 0 ∧ s.content (s.curLoc o) = some (org o)) ∨ (∃ j ∈ s.hist o, s.Holds o j) ∨
      ∃ e, s.curAct o = some e ∧ (s.entries e).isTomb = true := by
  cases hcur : s.curAct o with
  | none =>
    have hw : s.curWrt o = s.masterWrt o := by rw [State.curWrt, hcur]
    have hl : s.content (s.curLoc o) = s.master o := by rw [State.curLoc, hcur]; rfl
    rcases h.master o ho with ⟨h1, h2⟩ | ⟨j, hj, h1, h2⟩
    · left
      exact ⟨hw.trans h1, hl.trans h2⟩
    · right
      left
      exact ⟨j, hj, hw.trans h1.symm, hl.trans h2.symm⟩
  | some e =>
    obtain ⟨he, hobj⟩ := hc.versions.entry o e hcur
    right
    rcases h.entry e he with ht | ⟨j, hj, h1, h2⟩
    · right
      exact ⟨e, rfl, ht⟩
    · left
      rw [hobj] at hj
      refine ⟨j, hj, ?_, ?_⟩
      · rw [State.curWrt, hcur]
        exact h1.symm
      · rw [State.curLoc, hcur]
        exact h2.symm

/-- Steps that change no entry and no master. -/
theorem Contents.frame (h : Contents org s) (hentries : s'.entries = s.entries)
    (hnum : s'.numEntries = s.numEntries)
    (htomb : ∀ e < s.numEntries, s.tombstone e = true → s'.tombstone e = true)
    (hfreed : s'.freed = s.freed) (hwrt : s'.masterWrt = s.masterWrt)
    (hmaster : s'.master = s.master)
    (hhist : ∀ o, ∀ j ∈ s.hist o, j ∈ s'.hist o ∧
      (s'.copies j).wrtClk = (s.copies j).wrtClk ∧ (s'.copies j).content = (s.copies j).content)
    (hpos : ∀ o, ∀ j ∈ s'.hist o, j ∉ s.hist o → 0 < (s'.copies j).wrtClk) : Contents org s' := by
  refine ⟨fun e he ht => ?_, fun e he => ?_, fun o ho => ?_, fun o j hj => ?_⟩
  · rw [hnum] at he
    rw [hentries] at ht
    exact htomb e he (h.tomb e he ht)
  · rw [hnum] at he
    rw [hentries]
    rcases h.entry e he with h1 | ⟨j, hj, h1, h2⟩
    · left
      exact h1
    · right
      obtain ⟨h3, h4, h5⟩ := hhist _ j hj
      exact ⟨j, h3, h4.trans h1, h5.trans h2⟩
  · rw [hfreed] at ho
    rw [hwrt, hmaster]
    rcases h.master o ho with h1 | ⟨j, hj, h1, h2⟩
    · left
      exact h1
    · right
      obtain ⟨h3, h4, h5⟩ := hhist _ j hj
      exact ⟨j, h3, h4.trans h1, h5.trans h2⟩
  · by_cases hj' : j ∈ s.hist o
    · rw [(hhist o j hj').2.1]
      exact h.pos o j hj'
    · exact hpos o j hj hj'

/-! ### Reclamation -/

theorem contents_ckptlogEnq (h : Contents org s) {t' : ℕ} {x : CkptEntry α}
    (hx : x.isTomb = true ∨ ∃ j ∈ s.hist x.obj, (s.copies j).wrtClk = x.wrtClk ∧
      (s.copies j).content = x.content) : Contents org (s.ckptlogEnq t' x) := by
  refine ⟨fun e he ht => ?_, fun e he => ?_, h.master, h.pos⟩
  · change (Function.update s.entries s.numEntries x e).isTomb = true at ht
    show Function.update s.tombstone s.numEntries x.isTomb e = true
    rcases Nat.lt_succ_iff_lt_or_eq.mp he with he | rfl
    · rw [Function.update_of_ne (by omega)] at ht ⊢
      exact h.tomb e he ht
    · rw [Function.update_self] at ht ⊢
      exact ht
  · show (Function.update s.entries s.numEntries x e).isTomb = true ∨
      ∃ j ∈ s.hist (Function.update s.entries s.numEntries x e).obj,
        (s.copies j).wrtClk = (Function.update s.entries s.numEntries x e).wrtClk ∧
        (s.copies j).content = (Function.update s.entries s.numEntries x e).content
    rcases Nat.lt_succ_iff_lt_or_eq.mp he with he | rfl
    · rw [Function.update_of_ne (by omega)]
      exact h.entry e he
    · rw [Function.update_self]
      exact hx

theorem contents_markTombstone (h : Contents org s) (t wrt k : ℕ) :
    Contents org (s.markTombstone t wrt k) := by
  unfold State.markTombstone
  dsimp only
  split
  · exact h
  split
  · have henq : Contents org (s.ckptlogEnq t
        ⟨(s.copies k).obj, wrt, (s.clks t).qp0, true, none⟩) := contents_ckptlogEnq h (Or.inl rfl)
    exact { henq with }
  · rename_i e _
    refine h.frame rfl rfl (fun e' _ ht => ?_) rfl rfl rfl (fun _ _ hj => ⟨hj, rfl, rfl⟩)
      fun _ _ hj hn => absurd hj hn
    show Function.update s.tombstone e true e' = true
    by_cases he : e' = e
    · rw [he, Function.update_self]
    · rw [Function.update_of_ne he]
      exact ht

theorem contents_checkpoint (h : Contents org s) (hc : Core B s t W []) {t' : ℕ} {w : WrtSet}
    (hs : s.Synced t') (hw : w ∈ s.tvNew t') (hk : k ∈ w.copies)
    (hlt : ltClock B w.wrtClk (s.clks t').qp0) (hn : s.NeedsCkpt B t' k) :
    Contents org (s.checkpoint t' w.wrtClk k) := by
  obtain ⟨hhist, hwrt, -⟩ := hc.needsCkpt hs hw hk hlt hn
  have henq : Contents org (s.ckptlogEnq t'
      ⟨(s.copies k).obj, w.wrtClk, (s.clks t').qp0, false, (s.copies k).content⟩) :=
    contents_ckptlogEnq h (Or.inr ⟨k, hhist, hwrt, rfl⟩)
  exact { henq with }

theorem contents_writeback (h : Contents org s) (hc : Core B s t W c) {e : ℕ}
    (he : s.curAct (s.entries e).obj = some e) (ht : s.tombstone e = false) :
    Contents org (s.writeback e) := by
  have hlt := (hc.versions.entry _ e he).1
  refine { h with master := fun o ho => ?_ }
  show Function.update s.masterWrt (s.entries e).obj _ o = 0 ∧
      Function.update s.master (s.entries e).obj _ o = _ ∨
    ∃ j ∈ s.hist o, (s.copies j).wrtClk = Function.update s.masterWrt (s.entries e).obj _ o ∧
      (s.copies j).content = Function.update s.master (s.entries e).obj _ o
  by_cases heq : o = (s.entries e).obj
  · subst heq
    rw [Function.update_self, Function.update_self]
    right
    rcases h.entry e hlt with h1 | h1
    · rw [h.tomb e hlt h1] at ht
      cases ht
    · exact h1
  · rw [Function.update_of_ne heq, Function.update_of_ne heq]
    exact h.master o ho

theorem contents_ckptlogCleanup (h : Contents org s) (t u : ℕ) :
    Contents org (s.ckptlogCleanup B t u) := by
  refine { h with master := fun o ho => ?_ }
  obtain ⟨h1, h2⟩ : o ∉ s.freed ∧ o ∉ s.deallocs B t u := by
    simpa [State.ckptlogCleanup] using ho
  show _ ∧ (if o ∈ s.deallocs B t u then none else s.master o) = _ ∨
    ∃ j ∈ s.hist o, _ ∧ _ = if o ∈ s.deallocs B t u then none else s.master o
  rw [if_neg h2]
  exact h.master o h1

theorem contents_tvlogReclaim (h : Contents org s) (hc : Core B s t W []) {t' : ℕ}
    (hs : s.Synced t') : Contents org (s.tvlogReclaim B t') := by
  refine hc.tvlogReclaim_rule hs ?_ ?_ ?_ ?_ ?_ ?_ h
  · exact fun s₁ w k h₁ _ _ _ _ => contents_markTombstone h₁ t' w.wrtClk k
  · exact fun s₁ w rest h₁ _ => { h₁ with }
  · exact fun s₁ h₁ => { h₁ with }
  · exact fun s₁ w k h₁ hc₁ hs₁ hw hk hlt hn => contents_checkpoint h₁ hc₁ hs₁ hw hk hlt hn
  · exact fun s₁ w rest h₁ _ _ _ _ _ => { h₁ with }
  · exact fun s₁ h₁ => { h₁ with }

theorem contents_ckptlogReclaim (h : Contents org s) (hc : Core B s t W c) (t' wb : ℕ) :
    Contents org (s.ckptlogReclaim B t' wb) := by
  refine (ckptlogReclaim_rule (P := fun s₁ => Contents org s₁ ∧ Core B s₁ t W c)
    (fun budget => ?_) ⟨h, hc⟩).1
  refine ckptlogReclaimX_rule (P := fun s₁ => Contents org s₁ ∧ Core B s₁ t W c)
    ?_ ?_ ?_ ?_ ?_ ⟨h, hc⟩
  · exact fun s₁ e rest h₁ _ => ⟨{ h₁.1 with }, h₁.2.congr {} fun _ => id⟩
  · intro s₁ h₁ _
    unfold State.noteMinCkpt
    split
    · exact h₁
    · exact ⟨{ h₁.1 with }, h₁.2.congr {} fun _ => id⟩
  · exact fun s₁ e rest h₁ _ _ he ht => ⟨{ contents_writeback h₁.1 h₁.2 he ht with },
      (core_writeback h₁.2 he).congr {} fun _ => id⟩
  · exact fun s₁ e rest h₁ _ _ _ => ⟨{ h₁.1 with }, h₁.2.congr {} fun _ => id⟩
  · exact fun s₁ h₁ => ⟨{ h₁.1 with }, h₁.2.congr {} fun _ => id⟩

theorem contents_reapThread (h : Contents org s) (hc : Core B s t W []) (t' : ℕ) :
    Contents org (s.reapThread B t') := by
  have hlogs : Contents org (s.reapLogs B t') := by
    refine hc.reapLogs_rule { h with } (fun _ _ h₁ => { h₁ with }) ?_ ?_
    · exact fun s₁ h₁ hc₁ hs₁ => contents_tvlogReclaim h₁ hc₁ hs₁
    · exact fun s₁ h₁ hc₁ => contents_ckptlogReclaim h₁ hc₁ t' 0
  have hclean := contents_ckptlogCleanup (B := B) hlogs t' maxVersion
  exact reapThread_rule (P := Contents org) hlogs (fun _ => { hclean with })
    fun _ => { hclean with }

/-! ### Transactions -/

theorem contents_commitCopy (h : Contents org s) {ks : List ℕ} (hc : Core B s t W (k :: ks))
    (hws : s.ws t = []) (hnd : (k :: ks).Nodup) (hW : 0 < W) :
    Contents org (s.commitCopy t W k) := by
  have hn := hc.next hws hnd
  have hkeep : ∀ (x : Copy α) (o : ℕ), ∀ j ∈ s.hist o, j ∈ s.hist o ∧
      (Function.update s.copies k x j).wrtClk = (s.copies j).wrtClk ∧
      (Function.update s.copies k x j).content = (s.copies j).content := by
    intro x o j hj
    rw [Function.update_of_ne (hn.version hj)]
    exact ⟨hj, rfl, rfl⟩
  have hconst : Contents org (s.commitConst W k) :=
    h.frame rfl rfl (fun _ _ => id) rfl rfl rfl (hkeep _) fun _ _ hj hj' => absurd hj hj'
  unfold State.commitCopy
  split
  · exact h.frame rfl rfl (fun _ _ => id) rfl rfl rfl (hkeep _) fun _ _ hj hj' => absurd hj hj'
  split
  · refine h.frame rfl rfl (fun _ _ => id) rfl rfl rfl (fun o j hj => ⟨?_, (hkeep _ o j hj).2⟩)
      fun o j hj hj' => ?_
    · show j ∈ Function.update s.hist (s.copies k).obj _ o
      by_cases heq : o = (s.copies k).obj
      · subst heq
        rw [Function.update_self]
        exact List.mem_cons_of_mem _ hj
      · rw [Function.update_of_ne heq]
        exact hj
    · -- the only new version is the copy
      change j ∈ Function.update s.hist (s.copies k).obj _ o at hj
      have heq : o = (s.copies k).obj := by
        by_contra heq
        rw [Function.update_of_ne heq] at hj
        exact hj' hj
      subst heq
      rw [Function.update_self] at hj
      rcases List.mem_cons.mp hj with rfl | hj
      · show 0 < (Function.update s.copies j _ j).wrtClk
        rw [Function.update_self]
        exact hW
      · exact absurd hj hj'
  · exact hconst
  · exact hconst

theorem contents_step {op : Op α β} (h : Contents org s) (hi : Inv B s)
    (hs : step B s op = some s') : Contents org s' := by
  have hc := hi.core
  cases Step.of_step hs with
  | lock t o kind =>
    refine h.frame rfl rfl (fun _ _ => id) rfl rfl rfl (fun o' j hj => ?_)
      fun _ _ hj hj' => absurd hj hj'
    have hlt := (hc.chains.mem o' j hj).1
    show _ ∧ (Function.update s.copies s.numCopies _ j).wrtClk = _ ∧
      (Function.update s.copies s.numCopies _ j).content = _
    rw [Function.update_of_ne (by omega)]
    exact ⟨hj, rfl, rfl⟩
  | write t k a _ hk =>
    refine h.frame rfl rfl (fun _ _ => id) rfl rfl rfl (fun o j hj => ?_)
      fun _ _ hj hj' => absurd hj hj'
    have hne : j ≠ k := by
      rintro rfl
      have h1 := (hc.locks.opn t j (Or.inl hk)).1
      have h2 := (hc.chains.mem o j hj).2.2.2
      have h3 := hc.clocks.max
      omega
    show _ ∧ (Function.update s.copies k _ j).wrtClk = _ ∧
      (Function.update s.copies k _ j).content = _
    rw [Function.update_of_ne hne]
    exact ⟨hj, rfl, rfl⟩
  | endTx t v info _ hv hgt =>
    rw [gtClock_iff] at hgt
    have hcommit := (commit_induction (P := fun s₁ _ => Contents org s₁)
      (fun _ _ _ hc₁ hws hnd _ _ h₁ => contents_commitCopy h₁ hc₁ hws hnd (by omega))
      (s.ws t) (s.commitSet t v info) (core_commitSet (hc.retag t v) hv)
      (Function.update_self _ _ _) (hc.locks.nodup t) (show s.localClk t < v by omega)
      (le_max_right _ _) { h with }).2.2
    exact { hcommit with }
  | tvlogReclaim t hm =>
    rcases hi.synced_or_idle hm with hsy | he
    · exact contents_tvlogReclaim h hc hsy
    · rw [he]
      exact h
  | ckptlogReclaim t wb => exact contents_ckptlogReclaim h hc t wb
  | zombinize t =>
    unfold State.zombinize
    split
    · exact { contents_ckptlogCleanup (B := B) h t maxVersion with }
    · exact { h with }
  | threadFree t =>
    unfold State.threadFree
    dsimp only
    split
    · have hdead : Contents org { s with dead := Function.update s.dead t true } := { h with }
      exact { contents_ckptlogCleanup (B := B) hdead t maxVersion with }
    · exact { h with }
  | cleanup t clk => exact contents_ckptlogCleanup h t _
  | reap t => exact { contents_reapThread h hc t with }
  | _ => exact { h with }

theorem contents_initial (org : ℕ → α) : Contents org (initial org : State α β) := by
  refine ⟨?_, ?_, fun o _ => Or.inl ⟨rfl, rfl⟩, ?_⟩
  · intro e he
    cases he
  · intro e he
    cases he
  · intro o k hk
    cases hk

theorem Reachable.contents {ok : State α β → Op α β → Prop} (hr : Reachable B org ok s) :
    Contents org s := by
  have h : Contents org s ∧ Inv B s := Run.Reach.invariant (I := fun s => Contents org s ∧ Inv B s)
    (fun _ h0 => h0 ▸ ⟨contents_initial org, inv_initial org⟩)
    (fun _ _ _ h _ hs => ⟨contents_step h.1 h.2 hs, inv_step h.2 hs⟩) hr
  exact h.1

end TimeStone.System
