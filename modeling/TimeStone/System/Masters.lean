/-
The current master of an object never goes back in time.

Entries are numbered in the order in which they are enqueued, so the values that
`np_cur_act` takes are the entries of the object in the order of their numbers.  A
checkpoint enqueues the newest version below its clock, and everything enqueued before is
older.  A tombstone is enqueued, or the current entry is marked, when the first loop of
`tvlog_reclaim_x` meets the free record.  The newest version of the object may still wait
for a checkpoint in the log of another thread then, and that checkpoint makes it the
current master again (`master_goes_back`).  Where the newest version is detached before
the free record is processed, the masters are in order (`masters_in_order`).

* `FreesLast` — the condition on the reclamation of free records;
* `Masters` — the invariant.
-/
import TimeStone.System.Inv

namespace TimeStone.System

variable {α β : Type*} {B t W k : ℕ} {s s' : State α β} {c : List ℕ}

/-- Every object whose free record the first loop is going to process has no copy in a
transient version log that is linked. -/
def State.FreesLast (s : State α β) (t : ℕ) : Prop :=
  ∀ w ∈ s.tvOld t, ∀ k ∈ w.copies, (s.copies k).kind = .free → s.status k ≠ .tombstoneMarked →
    s.pCopy (s.copies k).obj = none

instance (s : State α β) (t : ℕ) : Decidable (s.FreesLast t) :=
  inferInstanceAs (Decidable (∀ w ∈ s.tvOld t, ∀ k ∈ w.copies, _))

/-- The condition on the steps that reclaim a transient version log. -/
def FreesLast (s : State α β) : Op α β → Prop
  | .tvlogReclaim t => (s.req t).tvlog ≠ .none → s.FreesLast t
  | .reap t => s.FreesLast t
  | _ => True

instance (s : State α β) (op : Op α β) : Decidable (FreesLast s op) := by
  unfold FreesLast
  induction op using Op.casesOn <;> infer_instance

/-- The entries of the objects, in the order in which they were enqueued. -/
structure Masters (s : State α β) : Prop where
  src : ∀ e < s.numEntries, (s.entries e).isTomb = true ∧ s.tombstone e = true ∧
      s.freeClk (s.entries e).obj = some (s.entries e).wrtClk ∨
    (s.entries e).isTomb = false ∧ ∃ j ∈ s.hist (s.entries e).obj, s.status j = .detached ∧
      (s.copies j).wrtClk = (s.entries e).wrtClk
  mono : ∀ e₂ < s.numEntries, ∀ e₁ < e₂, (s.entries e₁).obj = (s.entries e₂).obj →
    (s.entries e₁).wrtClk ≤ (s.entries e₂).wrtClk
  cur : ∀ o e, s.curAct o = some e → ∀ e' < s.numEntries, (s.entries e').obj = o → e' ≤ e
  tomb : ∀ e, s.tombstone e = true → e < s.numEntries ∧
    s.curAct (s.entries e).obj = some e ∧ s.pCopy (s.entries e).obj = none ∧
    ∃ k < s.numCopies, (s.copies k).kind = .free ∧ (s.copies k).obj = (s.entries e).obj ∧
      s.status k = .tombstoneMarked

/-- A copy that has to be checkpointed belongs to a chain that is linked. -/
theorem Core.pCopy_of_needsCkpt (h : Core B s t W []) {t' : ℕ} {w : WrtSet} (hs : s.Synced t')
    (hw : w ∈ s.tvNew t') (hk : k ∈ w.copies) (hlt : ltClock B w.wrtClk (s.clks t').qp0)
    (hn : s.NeedsCkpt B t' k) : s.pCopy (s.copies k).obj ≠ none := by
  intro hp
  obtain ⟨hhist, -, -, hnew⟩ := h.needsCkpt hs hw hk hlt hn
  obtain ⟨i, rest, hi⟩ := List.exists_cons_of_ne_nil (List.ne_nil_of_mem hhist)
  obtain ⟨-, htop⟩ := h.chains.top _ i (by rw [hi]; rfl)
  have hd : s.status i = .detached := by
    rcases htop with htop | htop
    · rw [hp] at htop
      cases htop.1
    · exact htop.2
  have hmem : i ∈ s.hist (s.copies k).obj := by rw [hi]; exact List.mem_cons_self
  -- the detached copy is older than the one to checkpoint, and in front of it
  have hle := hnew i hmem (h.versions.detached _ i hmem hd).1
  have hsort := h.chains.sorted (s.copies k).obj
  rw [hi] at hhist hsort
  rcases List.mem_cons.mp hhist with rfl | hk'
  · exact hn.2.1 hd
  · have := (List.pairwise_cons.mp hsort).1 k hk'
    rw [ltClock_iff] at this
    omega

/-- The free record of an object is the copy that locks it. -/
theorem Core.free_unique (h : Core B s t W c) {i j : ℕ} (hi : i < s.numCopies)
    (hj : j < s.numCopies) (hfi : (s.copies i).kind = .free) (hfj : (s.copies j).kind = .free)
    (he : (s.copies i).obj = (s.copies j).obj) : i = j := by
  have h1 := (h.locks.freed i hi hfi).1
  have h2 := (h.locks.freed j hj hfj).1
  rw [he, h2, Option.some_inj] at h1
  exact h1.symm

/-- The free records that are marked stay as they are. -/
def RecordsKept (s s' : State α β) : Prop :=
  ∀ k < s.numCopies, (s.copies k).kind = .free → s.status k = .tombstoneMarked →
    k < s'.numCopies ∧ (s'.copies k).kind = .free ∧ (s'.copies k).obj = (s.copies k).obj ∧
      s'.status k = .tombstoneMarked

/-- Steps that enqueue nothing. -/
theorem Masters.frame (h : Masters s) (hentries : s'.entries = s.entries)
    (hnum : s'.numEntries = s.numEntries) (htomb : s'.tombstone = s.tombstone)
    (hcur : s'.curAct = s.curAct)
    (hhist : ∀ o, ∀ j ∈ s.hist o, s.status j = .detached →
      j ∈ s'.hist o ∧ s'.status j = .detached ∧ (s'.copies j).wrtClk = (s.copies j).wrtClk)
    (hobj : ∀ e, s.tombstone e = true → s'.freeClk (s.entries e).obj = s.freeClk (s.entries e).obj ∧
      s'.pCopy (s.entries e).obj = s.pCopy (s.entries e).obj)
    (hfree : RecordsKept s s') : Masters s' := by
  refine ⟨fun e he => ?_, ?_, ?_, fun e he => ?_⟩
  · rw [hnum] at he
    rw [hentries, htomb]
    rcases h.src e he with ⟨h1, h2, h3⟩ | ⟨hn, j, hj, hd, hw⟩
    · left
      rw [(hobj e h2).1]
      exact ⟨h1, h2, h3⟩
    · right
      obtain ⟨h1, h2, h3⟩ := hhist _ j hj hd
      exact ⟨hn, j, h1, h2, h3.trans hw⟩
  · rw [hnum, hentries]
    exact h.mono
  · rw [hnum, hentries, hcur]
    exact h.cur
  · rw [htomb] at he
    rw [hnum, hentries, hcur, (hobj e he).2]
    obtain ⟨h1, h2, h3, k, hk, h4, h5, h6⟩ := h.tomb e he
    obtain ⟨h7, h8, h9, h10⟩ := hfree k hk h4 h6
    exact ⟨h1, h2, h3, k, h7, h8, h9.trans h5, h10⟩

/-! ### Reclamation -/

/-- A copy that has to be checkpointed belongs to an object without a tombstone. -/
theorem Masters.ne_of_needsCkpt (h : Masters s) (hc : Core B s t W []) {t' : ℕ} {w : WrtSet}
    (hs : s.Synced t') (hw : w ∈ s.tvNew t') (hk : k ∈ w.copies)
    (hlt : ltClock B w.wrtClk (s.clks t').qp0) (hn : s.NeedsCkpt B t' k) {e : ℕ}
    (he : s.tombstone e = true) : (s.entries e).obj ≠ (s.copies k).obj := by
  have hp := hc.pCopy_of_needsCkpt hs hw hk hlt hn
  intro heq
  rw [← heq] at hp
  exact hp (h.tomb e he).2.2.1

/-- A free record that is not marked belongs to an object without a tombstone. -/
theorem Masters.ne_of_free (h : Masters s) (hc : Core B s t W c) (hk : k < s.numCopies)
    (hkind : (s.copies k).kind = .free) (hst : s.status k ≠ .tombstoneMarked) {e : ℕ}
    (he : s.tombstone e = true) : (s.entries e).obj ≠ (s.copies k).obj := by
  intro heq
  obtain ⟨-, -, -, i, hi, h1, h2, h3⟩ := h.tomb e he
  rw [hc.free_unique hi hk h1 hkind (h2.trans heq)] at h3
  exact hst h3

theorem masters_checkpoint (h : Masters s) (hc : Core B s t W []) {t' : ℕ} {w : WrtSet}
    (hs : s.Synced t') (hw : w ∈ s.tvNew t') (hk : k ∈ w.copies)
    (hlt : ltClock B w.wrtClk (s.clks t').qp0) (hn : s.NeedsCkpt B t' k) :
    Masters (s.checkpoint t' w.wrtClk k) := by
  obtain ⟨hhist, hwrt, -, hnew⟩ := hc.needsCkpt hs hw hk hlt hn
  have hobj : ∀ e, s.tombstone e = true → (s.entries e).obj ≠ (s.copies k).obj :=
    fun e he => h.ne_of_needsCkpt hc hs hw hk hlt hn he
  have hold : ∀ e < s.numEntries, (s.checkpoint t' w.wrtClk k).entries e = s.entries e :=
    fun e he => Function.update_of_ne (by omega) _ _
  have hself : (s.checkpoint t' w.wrtClk k).entries s.numEntries =
      ⟨(s.copies k).obj, w.wrtClk, (s.clks t').qp0, false, (s.copies k).content⟩ :=
    Function.update_self _ _ _
  have htomb : ∀ e, (s.checkpoint t' w.wrtClk k).tombstone e = true →
      s.tombstone e = true ∧ e < s.numEntries := by
    intro e he
    change Function.update s.tombstone s.numEntries false e = true at he
    have hne : e ≠ s.numEntries := by
      rintro rfl
      rw [Function.update_self] at he
      cases he
    rw [Function.update_of_ne hne] at he
    exact ⟨he, (h.tomb e he).1⟩
  have hstatus : ∀ j, s.status j = .detached →
      (s.checkpoint t' w.wrtClk k).status j = .detached := by
    intro j hj
    show Function.update s.status k .detached j = _
    by_cases he : j = k
    · rw [he, Function.update_self]
    · rw [Function.update_of_ne he]
      exact hj
  have hlast : ∀ e < s.numEntries, (s.entries e).obj = (s.copies k).obj →
      (s.entries e).wrtClk ≤ w.wrtClk := by
    intro e he heq
    rcases h.src e he with ⟨-, ht, -⟩ | ⟨-, j, hj, hd, hjw⟩
    · exact absurd heq (hobj e ht)
    · rw [← hjw, ← hwrt]
      rw [heq] at hj
      exact hnew j hj (hc.versions.detached _ j hj hd).1
  refine ⟨fun e he => ?_, fun e₂ he₂ e₁ he₁ heq => ?_, fun o e he e' he' ho => ?_, fun e he => ?_⟩
  · rcases Nat.lt_succ_iff_lt_or_eq.mp he with he | rfl
    · rw [hold e he]
      rcases h.src e he with ⟨h1, h2, h3⟩ | ⟨h1, j, hj, hd, hjw⟩
      · left
        refine ⟨h1, ?_, h3⟩
        exact (Function.update_of_ne (by omega) _ _).trans h2
      · right
        exact ⟨h1, j, hj, hstatus j hd, hjw⟩
    · right
      rw [hself]
      exact ⟨rfl, k, hhist, Function.update_self _ _ _, hwrt⟩
  · rcases Nat.lt_succ_iff_lt_or_eq.mp he₂ with he₂ | rfl
    · rw [hold e₁ (by omega), hold e₂ he₂] at heq ⊢
      exact h.mono e₂ he₂ e₁ he₁ heq
    · rw [hold e₁ he₁, hself] at heq ⊢
      exact hlast e₁ he₁ heq
  · change Function.update s.curAct (s.copies k).obj (some s.numEntries) o = some e at he
    change e' < s.numEntries + 1 at he'
    by_cases heq : o = (s.copies k).obj
    · subst heq
      rw [Function.update_self, Option.some_inj] at he
      omega
    · rw [Function.update_of_ne heq] at he
      rcases Nat.lt_succ_iff_lt_or_eq.mp he' with he' | rfl
      · rw [hold e' he'] at ho
        exact h.cur o e he e' he' ho
      · rw [hself] at ho
        exact absurd ho.symm heq
  · obtain ⟨ht, he'⟩ := htomb e he
    obtain ⟨-, h2, h3, i, hi, h4, h5, h6⟩ := h.tomb e ht
    rw [hold e he']
    refine ⟨Nat.lt_succ_of_lt he', ?_, ?_, i, hi, h4, h5, ?_⟩
    · exact (Function.update_of_ne (hobj e ht) _ _).trans h2
    · show (if s.pCopy (s.copies k).obj = some k then
        Function.update s.pCopy (s.copies k).obj none else s.pCopy) _ = none
      split
      · rw [Function.update_of_ne (hobj e ht)]
        exact h3
      · exact h3
    · have hne : i ≠ k := by
        rintro rfl
        exact hn.1 h4
      exact (Function.update_of_ne hne _ _).trans h6

theorem masters_markTombstone (h : Masters s) (hc : Core B s t W []) {t' : ℕ} {w : WrtSet}
    (hw : w ∈ s.tvOld t') (hk : k ∈ w.copies) (hkind : (s.copies k).kind = .free)
    (hp : s.status k ≠ .tombstoneMarked → s.pCopy (s.copies k).obj = none) :
    Masters (s.markTombstone t' w.wrtClk k) := by
  obtain ⟨hlt, hwrt, -, -⟩ := hc.member (List.mem_append_left _ hw) hk
  obtain ⟨-, hfree, hnew⟩ := hc.locks.freed k hlt hkind
  unfold State.markTombstone
  dsimp only
  split
  · exact h
  rename_i hst
  -- this is the first tombstone of the object
  have hobj : ∀ e, s.tombstone e = true → (s.entries e).obj ≠ (s.copies k).obj :=
    fun e he => h.ne_of_free hc hlt hkind hst he
  have hhist : ∀ o, ∀ j ∈ s.hist o, s.status j = .detached →
      Function.update s.status k .tombstoneMarked j = .detached :=
    fun o j hj hd => (hc.status_of_free hkind _ o j hj).trans hd
  split
  · -- a tombstone is appended
    have hold : ∀ e < s.numEntries, ∀ x : CkptEntry α,
        Function.update s.entries s.numEntries x e = s.entries e :=
      fun e he x => Function.update_of_ne (by omega) _ _
    have htombOld : ∀ e < s.numEntries,
        Function.update s.tombstone s.numEntries true e = s.tombstone e :=
      fun e he => Function.update_of_ne (by omega) _ _
    refine ⟨fun e he => ?_, fun e₂ he₂ e₁ he₁ heq => ?_, fun o e he e' he' ho => ?_,
      fun e he => ?_⟩
    · dsimp only [State.ckptlogEnq] at he ⊢
      rcases Nat.lt_succ_iff_lt_or_eq.mp he with he | rfl
      · rw [hold e he, htombOld e he]
        exact (h.src e he).imp_right fun ⟨h1, j, hj, hd, hjw⟩ => ⟨h1, j, hj, hhist _ j hj hd, hjw⟩
      · left
        rw [Function.update_self, Function.update_self]
        exact ⟨rfl, rfl, hfree.trans (congrArg some hwrt)⟩
    · dsimp only [State.ckptlogEnq] at he₂ heq ⊢
      rcases Nat.lt_succ_iff_lt_or_eq.mp he₂ with he₂ | rfl
      · rw [hold e₁ (by omega), hold e₂ he₂] at heq ⊢
        exact h.mono e₂ he₂ e₁ he₁ heq
      · rw [hold e₁ he₁, Function.update_self] at heq ⊢
        rcases h.src e₁ he₁ with ⟨-, ht, -⟩ | ⟨-, j, hj, hd, hjw⟩
        · exact absurd heq (hobj e₁ ht)
        · rw [heq] at hj
          exact hjw ▸ hwrt ▸ hnew j hj
    · dsimp only [State.ckptlogEnq] at he he' ho
      by_cases heq : o = (s.copies k).obj
      · subst heq
        rw [Function.update_self, Option.some_inj] at he
        omega
      · rw [Function.update_of_ne heq] at he
        rcases Nat.lt_succ_iff_lt_or_eq.mp he' with he' | rfl
        · rw [hold e' he'] at ho
          exact h.cur o e he e' he' ho
        · rw [Function.update_self] at ho
          exact absurd ho.symm heq
    · dsimp only [State.ckptlogEnq] at he ⊢
      by_cases heq : e = s.numEntries
      · subst heq
        rw [Function.update_self, Function.update_self]
        exact ⟨Nat.lt_succ_self _, rfl, hp hst, k, hlt, hkind, rfl, Function.update_self _ _ _⟩
      · rw [Function.update_of_ne heq] at he
        obtain ⟨h1, h2, h3, i, hi, h4, h5, h6⟩ := h.tomb e he
        rw [hold e h1, Function.update_of_ne (hobj e he)]
        exact ⟨Nat.lt_succ_of_lt h1, h2, h3, i, hi, h4, h5, marked_update k h6⟩
  · -- the current entry is marked
    rename_i e₀ hcur
    obtain ⟨hlt₀, hobj₀⟩ := hc.versions.entry _ e₀ hcur
    refine ⟨fun e he => ?_, h.mono, h.cur, fun e he => ?_⟩
    · rcases h.src e he with ⟨h1, h2, h3⟩ | ⟨h1, j, hj, hd, hjw⟩
      · left
        refine ⟨h1, ?_, h3⟩
        show Function.update s.tombstone e₀ true e = true
        by_cases heq : e = e₀
        · rw [heq, Function.update_self]
        · rw [Function.update_of_ne heq]
          exact h2
      · right
        exact ⟨h1, j, hj, hhist _ j hj hd, hjw⟩
    · change Function.update s.tombstone e₀ true e = true at he
      by_cases heq : e = e₀
      · subst heq
        refine ⟨hlt₀, ?_, ?_, k, hlt, hkind, hobj₀.symm, Function.update_self _ _ _⟩
        · show s.curAct (s.entries e).obj = some e
          rw [hobj₀]
          exact hcur
        · show s.pCopy (s.entries e).obj = none
          rw [hobj₀]
          exact hp hst
      · rw [Function.update_of_ne heq] at he
        obtain ⟨h1, h2, h3, i, hi, h4, h5, h6⟩ := h.tomb e he
        exact ⟨h1, h2, h3, i, hi, h4, h5, marked_update k h6⟩

theorem masters_writeback (h : Masters s) {e : ℕ} (he : s.curAct (s.entries e).obj = some e)
    (ht : s.tombstone e = false) : Masters (s.writeback e) := by
  refine ⟨h.src, h.mono, fun o e₁ he₁ => ?_, fun e₁ he₁ => ?_⟩
  · change Function.update s.curAct (s.entries e).obj none o = some e₁ at he₁
    by_cases heq : o = (s.entries e).obj
    · rw [heq, Function.update_self] at he₁
      cases he₁
    · rw [Function.update_of_ne heq] at he₁
      exact h.cur o e₁ he₁
  · obtain ⟨h1, h2, h3⟩ := h.tomb e₁ he₁
    refine ⟨h1, ?_, h3⟩
    -- a tombstoned entry is not written back
    have hne : (s.entries e₁).obj ≠ (s.entries e).obj := by
      intro heq
      rw [heq, he, Option.some_inj] at h2
      subst h2
      change s.tombstone e = true at he₁
      rw [ht] at he₁
      cases he₁
    exact (Function.update_of_ne hne _ _).trans h2

/-- What the first loop needs to know about the free records in front of it. -/
theorem freesLast_markTombstone {t' : ℕ} (h : s.FreesLast t') (w k : ℕ) :
    (s.markTombstone t' w k).FreesLast t' := by
  unfold State.markTombstone
  dsimp only
  split
  · exact h
  split
  · exact fun w hw j hj hkind hst => h w hw j hj hkind (mt (marked_update k) hst)
  · exact fun w hw j hj hkind hst => h w hw j hj hkind (mt (marked_update k) hst)

/-- The rule for `tvlog_reclaim` where the free records come last. -/
theorem Masters.tvlogReclaim_rule {P : State α β → Prop} (h : Masters s) (hc : Core B s t W [])
    {t' : ℕ} (hs : s.Synced t') (hf : (s.req t').tvlog ≠ .none → s.FreesLast t')
    (hmark : ∀ s w k, P s → Masters s → Core B s t W [] → s.Synced t' → w ∈ s.tvOld t' →
      k ∈ w.copies → (s.copies k).kind = .free → P (s.markTombstone t' w.wrtClk k))
    (hdrop : ∀ s w rest, P s → s.tvOld t' = w :: rest → P (s.dropSet t' w rest))
    (hrewind : ∀ s, P s → P (s.rewind t'))
    (hck : ∀ s w k, P s → Masters s → Core B s t W [] → s.Synced t' → w ∈ s.tvNew t' →
      k ∈ w.copies → ltClock B w.wrtClk (s.clks t').qp0 → s.NeedsCkpt B t' k →
      P (s.checkpoint t' w.wrtClk k))
    (hpass : ∀ s w rest, P s → s.tvNew t' = w :: rest → P (s.passSet t' w rest))
    (hserved : ∀ s, P s → P (s.tvServed t')) (hP : P s) :
    P (s.tvlogReclaim B t') ∧ Masters (s.tvlogReclaim B t') := by
  by_cases hreq : (s.req t').tvlog = .none
  · rw [State.tvlogReclaim, hreq]
    exact ⟨hP, h⟩
  refine (tvlogReclaim_phases
    (P := fun s₁ => P s₁ ∧ Masters s₁ ∧ Core B s₁ t W [] ∧ s₁.Synced t' ∧ s₁.FreesLast t')
    (Q := fun s₁ => P s₁ ∧ Masters s₁ ∧ Core B s₁ t W [] ∧ s₁.Synced t')
    (R := fun s₁ => P s₁ ∧ Masters s₁)
    ?_ ?_ ?_ ?_ ?_ ?_ (fun _ => ⟨hP, h⟩) ⟨hP, h, hc, hs, hf hreq⟩)
  · rintro s₁ w rest k ⟨hP₁, h₁, hc₁, hs₁, hf₁⟩ hw hk hkind
    have hw' : w ∈ s₁.tvOld t' := by rw [hw]; exact List.mem_cons_self
    exact ⟨hmark s₁ w k hP₁ h₁ hc₁ hs₁ hw' hk hkind,
      masters_markTombstone h₁ hc₁ hw' hk hkind (hf₁ w hw' k hk hkind),
      core_markTombstone hc₁ hw' hk hkind,
      (quiet_markTombstone (Quiet.refl s₁) _ _).synced hs₁, freesLast_markTombstone hf₁ _ _⟩
  · rintro s₁ w rest ⟨hP₁, h₁, hc₁, hs₁, hf₁⟩ hw
    refine ⟨hdrop s₁ w rest hP₁ hw, { h₁ with }, core_dropSet hc₁ hw, hs₁, fun w₁ hw₁ => hf₁ w₁ ?_⟩
    change w₁ ∈ Function.update s₁.tvOld t' rest t' at hw₁
    rw [Function.update_self] at hw₁
    rw [hw]
    exact List.mem_cons_of_mem _ hw₁
  · rintro s₁ ⟨hP₁, h₁, hc₁, hs₁, -⟩
    exact ⟨hrewind s₁ hP₁, { h₁ with }, core_rewind hc₁ t', hs₁⟩
  · rintro s₁ w rest k - ⟨hP₁, h₁, hc₁, hs₁⟩ hw hk hlt hn
    have hw' : w ∈ s₁.tvNew t' := by rw [hw]; exact List.mem_cons_self
    exact ⟨hck s₁ w k hP₁ h₁ hc₁ hs₁ hw' hk hlt hn, masters_checkpoint h₁ hc₁ hs₁ hw' hk hlt hn,
      core_checkpoint hc₁ hs₁ hw' hk hlt hn, hs₁⟩
  · rintro s₁ w rest ⟨hP₁, h₁, hc₁, hs₁⟩ hw _ _
    exact ⟨hpass s₁ w rest hP₁ hw, { h₁ with }, core_passSet hc₁ hw, hs₁⟩
  · rintro s₁ ⟨hP₁, h₁, -⟩ -
    exact ⟨hserved s₁ hP₁, { h₁ with }⟩

theorem masters_tvlogReclaim (h : Masters s) (hc : Core B s t W []) {t' : ℕ} (hs : s.Synced t')
    (hf : (s.req t').tvlog ≠ .none → s.FreesLast t') : Masters (s.tvlogReclaim B t') := by
  refine (h.tvlogReclaim_rule (P := fun _ => True) hc hs hf ?_ ?_ ?_ ?_ ?_ ?_ trivial).2
  · exact fun _ _ _ _ _ _ _ _ _ _ => trivial
  · exact fun _ _ _ _ _ => trivial
  · exact fun _ _ => trivial
  · exact fun _ _ _ _ _ _ _ _ _ _ _ => trivial
  · exact fun _ _ _ _ _ => trivial
  · exact fun _ _ => trivial

theorem masters_ckptlogReclaim (h : Masters s) (t wb : ℕ) :
    Masters (s.ckptlogReclaim B t wb) := by
  refine ckptlogReclaim_rule (P := Masters) (fun budget => ?_) h
  refine ckptlogReclaimX_rule (P := Masters) ?_ ?_ ?_ ?_ ?_ h
  · exact fun s₁ e rest h₁ _ => { h₁ with }
  · intro s₁ h₁ _
    unfold State.noteMinCkpt
    split
    · exact h₁
    · exact { h₁ with }
  · exact fun s₁ e rest h₁ _ _ he ht => { masters_writeback h₁ he ht with }
  · exact fun s₁ e rest h₁ _ _ _ => { h₁ with }
  · exact fun s₁ h₁ => { h₁ with }

/-- The rule for the logs of a zombie where the free records come last. -/
theorem Masters.reapLogs_rule {P : State α β → Prop} (h : Masters s) (hc : Core B s 0 0 [])
    (hf : s.FreesLast t) (hsync : P (s.syncClks t)) (hforce : ∀ s r, P s → P (s.forceReq t r))
    (htv : ∀ s, P s → Masters s → Core B s 0 0 [] → s.Synced t → s.FreesLast t →
      P (s.tvlogReclaim B t))
    (hck : ∀ s, P s → Masters s → P (s.ckptlogReclaim B t 0)) :
    P (s.reapLogs B t) ∧ Masters (s.reapLogs B t) := by
  refine (reapLogs_phases
    (P := fun s₁ => P s₁ ∧ Masters s₁ ∧ Core B s₁ 0 0 [] ∧ s₁.Synced t ∧ s₁.FreesLast t)
    (Q := fun s₁ => P s₁ ∧ Masters s₁) (R := fun s₁ => P s₁ ∧ Masters s₁)
    ?_ ?_ ?_ ?_ ?_ (fun _ h₁ _ => h₁) ?_)
  · exact ⟨hsync, { h with }, hc.congr {} fun _ => id, synced_syncClks s t, hf⟩
  · rintro s₁ r ⟨hP₁, h₁, hc₁, hs₁, hf₁⟩
    exact ⟨hforce s₁ r hP₁, { h₁ with }, hc₁.congr {} fun _ => id, hs₁, hf₁⟩
  · exact fun s₁ h₁ _ => ⟨h₁.1, h₁.2.1⟩
  · rintro s₁ ⟨hP₁, h₁, hc₁, hs₁, hf₁⟩ -
    exact ⟨htv s₁ hP₁ h₁ hc₁ hs₁ hf₁, masters_tvlogReclaim h₁ hc₁ hs₁ fun _ => hf₁⟩
  · exact fun s₁ r h₁ => ⟨hforce s₁ r h₁.1, { h₁.2 with }⟩
  · exact fun s₁ h₁ _ => ⟨hck s₁ h₁.1 h₁.2, masters_ckptlogReclaim h₁.2 t 0⟩

theorem masters_reapThread (h : Masters s) (hc : Core B s 0 0 []) (hf : s.FreesLast t) :
    Masters (s.reapThread B t) := by
  have hlogs : Masters (s.reapLogs B t) :=
    (h.reapLogs_rule (P := fun _ => True) hc hf trivial (fun _ _ _ => trivial)
      (fun _ _ _ _ _ _ => trivial) fun _ _ _ => trivial).2
  exact reapThread_rule (P := Masters) hlogs (fun _ => { hlogs with }) fun _ => { hlogs with }

/-! ### Transactions -/

theorem lock_copies (s : State α β) (t o : ℕ) (kind : Kind) : ∀ j < s.numCopies,
    (s.lock t o kind).copies j = s.copies j ∧ (s.lock t o kind).status j = s.status j :=
  fun _ hj => ⟨Function.update_of_ne (by omega) _ _, Function.update_of_ne (by omega) _ _⟩

theorem recordsKept_lock (s : State α β) (t o : ℕ) (kind : Kind) :
    RecordsKept s (s.lock t o kind) := by
  intro k hk h1 h2
  obtain ⟨he1, he2⟩ := lock_copies s t o kind k hk
  rw [he1, he2]
  exact ⟨Nat.lt_succ_of_lt hk, h1, rfl, h2⟩

theorem masters_lock (h : Masters s) (hc : Core B s t W c) {t' o : ℕ} {kind : Kind} :
    Masters (s.lock t' o kind) := by
  refine h.frame rfl rfl rfl rfl (fun o' j hj hd => ?_) (fun _ _ => ⟨rfl, rfl⟩)
    (recordsKept_lock s t' o kind)
  obtain ⟨he1, he2⟩ := lock_copies s t' o kind j (hc.chains.mem o' j hj).1
  rw [he1, he2]
  exact ⟨hj, hd, rfl⟩

theorem write_copies (s : State α β) (k : ℕ) (a : α) (j : ℕ) :
    ((s.write k a).copies j).obj = (s.copies j).obj ∧
      ((s.write k a).copies j).kind = (s.copies j).kind ∧
      ((s.write k a).copies j).wrtClk = (s.copies j).wrtClk := by
  show (Function.update s.copies k _ j).obj = _ ∧ (Function.update s.copies k _ j).kind = _ ∧
    (Function.update s.copies k _ j).wrtClk = _
  by_cases he : j = k
  · subst he
    rw [Function.update_self]
    exact ⟨rfl, rfl, rfl⟩
  · rw [Function.update_of_ne he]
    exact ⟨rfl, rfl, rfl⟩

theorem recordsKept_write (s : State α β) (k : ℕ) (a : α) : RecordsKept s (s.write k a) := by
  intro j hj h1 h2
  obtain ⟨he1, he2, -⟩ := write_copies s k a j
  exact ⟨hj, he2.trans h1, he1, h2⟩

theorem masters_write (h : Masters s) {a : α} : Masters (s.write k a) := by
  refine h.frame rfl rfl rfl rfl (fun o j hj hd => ?_) (fun _ _ => ⟨rfl, rfl⟩)
    (recordsKept_write s k a)
  exact ⟨hj, hd, (write_copies s k a j).2.2⟩

/-- A marked free record is not among the copies that are still to be committed. -/
theorem recordsKept_commitCopy {ks : List ℕ} (hc : Core B s t W (k :: ks)) (hws : s.ws t = [])
    (hnd : (k :: ks).Nodup) : RecordsKept s (s.commitCopy t W k) := by
  intro j hj h1 h2
  have hne : j ≠ k := ((hc.next hws hnd).freed hj h1).1
  have hcopy : ∀ x : Copy α, j < s.numCopies ∧ (Function.update s.copies k x j).kind = .free ∧
      (Function.update s.copies k x j).obj = (s.copies j).obj ∧ s.status j = .tombstoneMarked := by
    intro x
    rw [Function.update_of_ne hne]
    exact ⟨hj, h1, rfl, h2⟩
  unfold State.commitCopy
  split
  · exact hcopy _
  · split <;> exact hcopy _

theorem masters_commitCopy (h : Masters s) {ks : List ℕ} (hc : Core B s t W (k :: ks))
    (hws : s.ws t = []) (hnd : (k :: ks).Nodup) : Masters (s.commitCopy t W k) := by
  have hn := hc.next hws hnd
  have hfree := recordsKept_commitCopy hc hws hnd
  -- an object with a tombstone is locked by its free record
  have hobj : ∀ e, s.tombstone e = true → (s.entries e).obj ≠ (s.copies k).obj := by
    intro e he heq
    obtain ⟨-, -, -, i, hi, h1, h2, -⟩ := h.tomb e he
    exact (hn.freed hi h1).2 (h2.trans heq)
  have hwrt : ∀ {o j : ℕ} (x : Copy α), j ∈ s.hist o →
      (Function.update s.copies k x j).wrtClk = (s.copies j).wrtClk := by
    intro o j x hj
    rw [Function.update_of_ne (hn.version hj)]
  unfold State.commitCopy at hfree ⊢
  split at hfree
  · rw [if_pos ‹_›]
    exact h.frame rfl rfl rfl rfl (fun o j hj hd => ⟨hj, hd, hwrt _ hj⟩)
      (fun e he => ⟨Function.update_of_ne (hobj e he) _ _, rfl⟩) hfree
  rw [if_neg ‹_›]
  have hconst : RecordsKept s (s.commitConst W k) → Masters (s.commitConst W k) :=
    h.frame rfl rfl rfl rfl (fun o j hj hd => ⟨hj, hd, hwrt _ hj⟩) fun _ _ => ⟨rfl, rfl⟩
  rcases hkind : (s.copies k).kind with _ | _ | _
  · rw [hkind] at hfree
    refine h.frame rfl rfl rfl rfl (fun o j hj hd => ⟨?_, hd, hwrt _ hj⟩)
      (fun e he => ⟨rfl, Function.update_of_ne (hobj e he) _ _⟩) hfree
    show j ∈ Function.update s.hist (s.copies k).obj _ o
    by_cases heq : o = (s.copies k).obj
    · subst heq
      rw [Function.update_self]
      exact List.mem_cons_of_mem _ hj
    · rw [Function.update_of_ne heq]
      exact hj
  · rw [hkind] at hfree
    exact hconst hfree
  · rw [hkind] at hfree
    exact hconst hfree

theorem masters_tvlogCommit (h : Masters s) (hc : Core B s t W []) (hv : s.Reading B W)
    (hW : s.localClk t < W) (info : β) : Masters (s.tvlogCommit t W info) :=
  (commit_induction (P := fun s₁ _ => Masters s₁)
    (fun _ _ _ hc₁ hws hnd _ _ h₁ => masters_commitCopy h₁ hc₁ hws hnd)
    (s.ws t) (s.commitSet t W info) (core_commitSet hc hv) (Function.update_self _ _ _)
    (hc.locks.nodup t) hW (le_max_right _ _) { h with }).2.2

/-! ### The steps -/

theorem masters_step {op : Op α β} (h : Masters s) (hi : Inv B s) (hok : FreesLast s op)
    (hs : step B s op = some s') : Masters s' := by
  cases Step.of_step hs with
  | lock t o kind => exact masters_lock h hi.core
  | write t k a => exact masters_write h
  | endTx t v info _ hv hgt =>
    rw [gtClock_iff] at hgt
    exact { masters_tvlogCommit h (hi.core.retag t v) hv (by omega) info with }
  | tvlogReclaim t hm =>
    rcases hi.synced_or_idle hm with hsy | he
    · exact masters_tvlogReclaim h hi.core hsy hok
    · rw [he]
      exact h
  | ckptlogReclaim t wb => exact masters_ckptlogReclaim h t wb
  | reap t => exact { masters_reapThread h hi.core hok with }
  | zombinize t =>
    unfold State.zombinize
    split
    · exact { h with }
    · exact { h with }
  | threadFree t =>
    unfold State.threadFree
    dsimp only
    split
    · exact { h with }
    · exact { h with }
  | _ => exact { h with }

theorem masters_initial (org : ℕ → α) : Masters (initial org : State α β) := by
  refine ⟨?_, ?_, ?_, ?_⟩
  · intro e he
    cases he
  · intro e he
    cases he
  · intro o e he
    cases he
  · intro e he
    cases he

/-- In every run in which free records are processed only after the newest version of
their object was detached, the entries of an object are enqueued in the order of their
write clocks, a tombstone has the clock of the free, and after an object got its
tombstone nothing is enqueued for it and the tombstone stays its current master. -/
theorem masters_in_order {org : ℕ → α} (hr : Reachable B org FreesLast s) :
    (∀ e₂ < s.numEntries, ∀ e₁ < e₂, (s.entries e₁).obj = (s.entries e₂).obj →
      (s.entries e₁).wrtClk ≤ (s.entries e₂).wrtClk) ∧
    (∀ e < s.numEntries, (s.entries e).isTomb = true →
      s.freeClk (s.entries e).obj = some (s.entries e).wrtClk) ∧
    (∀ e, s.tombstone e = true → s.curAct (s.entries e).obj = some e ∧
      ∀ e' < s.numEntries, (s.entries e').obj = (s.entries e).obj → e' ≤ e) ∧
    ∀ o e, s.curAct o = some e → (s.entries e).obj = o ∧
      ∀ e' < s.numEntries, (s.entries e').obj = o → e' ≤ e := by
  have h : Masters s ∧ Inv B s := Run.Reach.invariant (I := fun s => Masters s ∧ Inv B s)
    (fun _ h0 => h0 ▸ ⟨masters_initial org, inv_initial org⟩)
    (fun _ _ _ h hok hs => ⟨masters_step h.1 h.2 hok hs, inv_step h.2 hs⟩) hr
  obtain ⟨hm, hi⟩ := h
  refine ⟨hm.mono, fun e he ht => ?_, fun e ht => ?_, fun o e he => ?_⟩
  · rcases hm.src e he with h1 | h1
    · exact h1.2.2
    · rw [ht] at h1
      cases h1.1
  · exact ⟨(hm.tomb e ht).2.1, hm.cur _ e (hm.tomb e ht).2.1⟩
  · exact ⟨(hi.core.versions.entry o e he).2, hm.cur o e he⟩

/-- The thread 0 writes an object and the thread 1 frees it after the checkpoint: the entry
of the version is marked. -/
theorem masters_in_order_free : ∃ s : State ℕ ℕ, Reachable 0 (fun _ => 0) FreesLast s ∧
    s.curAct 5 = some 0 ∧ (∀ e' < s.numEntries, (s.entries e').obj = (s.entries 0).obj → e' ≤ 0) ∧
    s.freeClk 5 = some 60 := by
  have hd : (Run.exec (step 0) FreesLast (initial fun _ => 0 : State ℕ ℕ)
      ([.threadInit 0, .threadInit 1, .begin 0 10, .lock 0 5 .copy, .endTx 0 20 7] ++
        roundOfTwo 40 ⟨.ckpt, .none⟩ ++
        [.begin 1 50, .lock 1 5 .const, .free 1 5, .endTx 1 60 8] ++
        roundOfTwo 70 ⟨.bestEffort, .none⟩ ++ roundOfTwo 80 ⟨.bestEffort, .none⟩)).map (fun s =>
        decide (s.tombstone 0 = true ∧ s.curAct 5 = some 0 ∧ s.freeClk 5 = some 60)) =
      some true := by
    decide +kernel
  obtain ⟨s, hs, heq⟩ := Option.map_eq_some_iff.mp hd
  obtain ⟨h1, h2, h3⟩ := of_decide_eq_true heq
  have hr : Reachable 0 (fun _ => 0) FreesLast s := .of_exec (.init rfl) hs
  exact ⟨s, hr, h2, ((masters_in_order hr).2.2.1 0 h1).2, h3⟩

/-- The thread 1 frees the object that the thread 0 wrote.  Two best-effort rounds make a
tombstone, and the checkpoint after them makes the version of the thread 0 the current
master. -/
theorem master_goes_back : ∃ s : State ℕ ℕ, Reachable 0 (fun _ => 0) Run.any s ∧
    s.numEntries = 2 ∧ (s.entries 0).obj = 5 ∧ (s.entries 1).obj = 5 ∧
    (s.entries 0).isTomb = true ∧ (s.entries 1).wrtClk < (s.entries 0).wrtClk ∧
    s.curAct 5 = some 1 := by
  have hd : (Run.exec (step 0) Run.any (initial fun _ => 0 : State ℕ ℕ)
      ([.threadInit 0, .threadInit 1, .begin 0 10, .lock 0 5 .copy, .endTx 0 20 7,
        .begin 1 30, .lock 1 5 .const, .free 1 5, .endTx 1 40 8] ++
        roundOfTwo 50 ⟨.bestEffort, .none⟩ ++ roundOfTwo 60 ⟨.bestEffort, .none⟩ ++
        roundOfTwo 70 ⟨.ckpt, .none⟩)).map (fun s =>
        decide (s.numEntries = 2 ∧ (s.entries 0).obj = 5 ∧ (s.entries 1).obj = 5 ∧
          (s.entries 0).isTomb = true ∧ (s.entries 1).wrtClk < (s.entries 0).wrtClk ∧
          s.curAct 5 = some 1)) = some true := by
    decide +kernel
  exact Run.Reach.exists_of_exec (.init rfl) hd

end TimeStone.System
