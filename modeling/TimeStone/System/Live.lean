/-
Log space that is in use, and runs in which no object is freed.

The space of a copy is in use while the copy is in a transient version log or in the write
set of a transaction; after that the log puts a new copy there.  A version that was not
given back is in a log, and the newest copy of an object, the one `p_copy` points to, is
in the part of a log that no checkpoint has passed.

* `Frame` — the steps that lock nothing and commit nothing only detach copies and give log
  space back;
* `Logged` — which copies are in the logs;
* `NoFree` — without `ts_free` there are no tombstones, so the current master of an object
  without copies holds its newest version (`NoFree.version_curLoc`).
-/
import Mathlib.Data.List.Flatten
import TimeStone.System.Complete
import TimeStone.System.Contents

namespace TimeStone.System

variable {α β : Type*} {org : ℕ → α} {B t W k : ℕ} {s s' : State α β} {c : List ℕ}

/-- The copies in the committed write sets of the log of `t`. -/
def State.logged (s : State α β) (t : ℕ) : List ℕ :=
  (s.tvOld t ++ s.tvNew t).flatMap WrtSet.copies

/-- The copies whose space in the log of `t` is in use, in the order in which they were put
there. -/
def State.inLog (s : State α β) (t : ℕ) : List ℕ := s.logged t ++ s.ws t

/-- Where the copies of committed versions are. -/
structure Logged (s : State α β) : Prop where
  top : ∀ o, ∀ k ∈ s.pCopy o, ∃ t, ∃ w ∈ s.tvNew t, k ∈ w.copies
  kept : ∀ o, ∀ k ∈ s.hist o, s.reclaimed k = false →
    ∃ t, ∃ w ∈ s.tvOld t ++ s.tvNew t, k ∈ w.copies

/-- Nothing was freed. -/
structure NoFree (s : State α β) : Prop where
  kind : ∀ k < s.numCopies, (s.copies k).kind ≠ .free
  txFree : ∀ t, s.txFree t = []
  tomb : ∀ e < s.numEntries, (s.entries e).isTomb = false
  mark : ∀ e, s.tombstone e = false
  ckFree : ∀ t, s.ckFree t = []
  freed : s.freed = []

/-- What every step but a lock and a commit does to the versions. -/
structure Frame (s s' : State α β) : Prop where
  numCopies : s'.numCopies = s.numCopies
  hist : s'.hist = s.hist
  wrtClk : ∀ k, (s'.copies k).wrtClk = (s.copies k).wrtClk
  obj : ∀ k, (s'.copies k).obj = (s.copies k).obj
  ws : ∀ t, s'.ws t = s.ws t ∨ s'.ws t = []
  pCopy : ∀ o, ∀ k ∈ s'.pCopy o, k ∈ s.pCopy o
  logged : ∀ t, (s'.logged t).Sublist (s.logged t)
  lastClk : s.lastClk ≤ s'.lastClk

/-- What a step does that begins no transaction either. -/
structure TxFrame (s s' : State α β) : Prop extends Frame s s' where
  tx : ∀ t, s'.InTx t → s.InTx t ∧ s'.localClk t = s.localClk t

/-- The write clock of the newest version of `o`, if it has one. -/
def State.newest (s : State α β) (o : ℕ) : Option ℕ :=
  (s.hist o).head?.map fun k => (s.copies k).wrtClk

/-- The write clock of the version at a location; an original master that was never
written back has none. -/
def State.version (s : State α β) : Loc → Option ℕ
  | .copy k => some (s.copies k).wrtClk
  | .entry e => some (s.entries e).wrtClk
  | .master o => if s.masterWrt o = 0 then none else some (s.masterWrt o)

/-! ### The newest copy -/

/-- `p_copy` is the newest version. -/
theorem Chains.head_of_pCopy (h : Chains B s) {o : ℕ} (hp : s.pCopy o = some k) :
    (s.hist o).head? = some k ∧ s.wrtClkPrev k = maxVersion ∧ s.status k ≠ .detached := by
  cases hh : s.hist o with
  | nil =>
    rw [h.nil o hh] at hp
    cases hp
  | cons j js =>
    obtain ⟨hprev, htop⟩ := h.top o j (by rw [hh]; rfl)
    rcases htop with ⟨htop, hst⟩ | ⟨htop, -⟩
    · rw [hp, Option.some_inj] at htop
      subst htop
      exact ⟨rfl, hprev, hst⟩
    · rw [hp] at htop
      cases htop

theorem mem_logged {t' : ℕ} : k ∈ s.logged t' ↔ ∃ w ∈ s.tvOld t' ++ s.tvNew t', k ∈ w.copies :=
  List.mem_flatMap

theorem SubSets.logged (h : SubSets s s') (t' : ℕ) : (s'.logged t').Sublist (s.logged t') :=
  (h t').flatMap _

/-! ### Steps that lock and commit nothing -/

/-- Copies are only detached. -/
def Detaches (s s' : State α β) : Prop := ∀ o, ∀ k ∈ s'.pCopy o, k ∈ s.pCopy o

theorem detaches_checkpoint (s : State α β) (t wrt k : ℕ) : Detaches s (s.checkpoint t wrt k) := by
  intro o j hj
  change j ∈ (if s.pCopy (s.copies k).obj = some k
    then Function.update s.pCopy (s.copies k).obj none else s.pCopy) o at hj
  split at hj
  · by_cases he : o = (s.copies k).obj
    · rw [he, Function.update_self] at hj
      cases hj
    · rw [Function.update_of_ne he] at hj
      exact hj
  · exact hj

theorem detaches_tvlogReclaim (s : State α β) (B t : ℕ) : Detaches s (s.tvlogReclaim B t) := by
  refine tvlogReclaim_rule (P := Detaches s) ?_ ?_ ?_ ?_ ?_ ?_ fun _ _ => id
  · intro s₁ w rest k h₁ _ _ _
    unfold State.markTombstone
    dsimp only
    split
    · exact h₁
    · split <;> exact h₁
  · exact fun s₁ _ _ h₁ _ => h₁
  · exact fun s₁ h₁ => h₁
  · exact fun s₁ w rest k h₁ _ _ _ _ o j hj => h₁ o j (detaches_checkpoint s₁ t _ k o j hj)
  · exact fun s₁ _ _ h₁ _ _ _ => h₁
  · exact fun s₁ h₁ _ => h₁

theorem detaches_ckptlogReclaim (s : State α β) (B t wb : ℕ) :
    Detaches s (s.ckptlogReclaim B t wb) := by
  refine ckptlogReclaim_rule (P := Detaches s) (fun budget => ?_) fun _ _ => id
  refine ckptlogReclaimX_rule (P := Detaches s) ?_ ?_ ?_ ?_ ?_ fun _ _ => id
  · exact fun _ _ _ h₁ _ => h₁
  · intro s₁ h₁ _
    unfold State.noteMinCkpt
    split <;> exact h₁
  · exact fun _ _ _ h₁ _ _ _ _ => h₁
  · exact fun _ _ _ h₁ _ _ _ => h₁
  · exact fun _ h₁ => h₁

theorem detaches_reapLogs (s : State α β) (B t : ℕ) : Detaches s (s.reapLogs B t) := by
  refine reapLogs_rule (P := Detaches s) (fun _ _ => id) (fun _ _ h₁ => h₁) ?_ ?_
  · exact fun s₁ h₁ _ o k hk => h₁ o k (detaches_tvlogReclaim s₁ B t o k hk)
  · exact fun s₁ h₁ o k hk => h₁ o k (detaches_ckptlogReclaim s₁ B t 0 o k hk)

theorem subSets_reapLogs (s : State α β) (B t : ℕ) : SubSets s (s.reapLogs B t) := by
  refine reapLogs_rule (P := SubSets s) (fun _ => List.Sublist.refl _) (fun _ _ h₁ => h₁) ?_ ?_
  · exact fun s₁ h₁ _ t' => ((tvlogReclaim_sets s₁ B t).1 t').trans (h₁ t')
  · intro s₁ h₁ t'
    obtain ⟨h2, h3⟩ := ckptlogReclaim_sets s₁ B t 0
    rw [h2, h3]
    exact h₁ t'

theorem Quiet.frame (h : Quiet s s') (hp : Detaches s s') (hsub : SubSets s s') :
    TxFrame s s' where
  numCopies := h.numCopies
  hist := h.hist
  wrtClk := fun k => by rw [h.copies]
  obj := fun k => by rw [h.copies]
  ws := fun t => Or.inl (congrFun h.ws t)
  pCopy := hp
  tx := fun t ht => by
    rw [State.InTx, h.runCnt] at ht
    exact ⟨ht, congrFun h.localClk t⟩
  logged := hsub.logged
  lastClk := h.lastClk.ge

theorem TxFrame.refl (s : State α β) : TxFrame s s :=
  ⟨⟨rfl, rfl, fun _ => rfl, fun _ => rfl, fun _ => Or.inl rfl, fun _ _ => id,
    fun _ => List.Sublist.refl _, le_refl _⟩, fun _ h => ⟨h, rfl⟩⟩

theorem Frame.ws_subset (h : Frame s s') (t' : ℕ) (hk : k ∈ s'.ws t') : k ∈ s.ws t' := by
  rcases h.ws t' with he | he <;> rw [he] at hk
  · exact hk
  · cases hk

theorem Frame.inLog (h : Frame s s') (t' : ℕ) : (s'.inLog t').Sublist (s.inLog t') := by
  refine (h.logged t').append ?_
  rcases h.ws t' with he | he <;> rw [he]
  exact List.nil_sublist _

theorem Frame.newest (h : Frame s s') (o : ℕ) : s'.newest o = s.newest o := by
  rw [State.newest, State.newest, h.hist]
  exact Option.map_congr fun k _ => h.wrtClk k

theorem frame_stop (ht : s.InTx t) : TxFrame s (s.stop t) :=
  { TxFrame.refl s with tx := fun _ ht' => ⟨(inTx_stop ht ht').1, rfl⟩ }

/-- The steps of a frame. -/
def Op.Plain : Op α β → Prop
  | .begin _ _ | .lock _ _ _ | .endTx _ _ _ | .free _ _ => False
  | _ => True

theorem frame_step {op : Op α β} (hop : op.Plain)
    (hs : step B s op = some s') : TxFrame s s' := by
  have hrefl := TxFrame.refl s
  cases Step.of_step hs with
  | begin => exact hop.elim
  | lock => exact hop.elim
  | free => exact hop.elim
  | endRead => exact hop.elim
  | endTx => exact hop.elim
  | write t k a =>
    refine { hrefl with wrtClk := fun j => ?_, obj := fun j => ?_ }
    · show (Function.update s.copies k _ j).wrtClk = _
      by_cases he : j = k
      · rw [he, Function.update_self]
      · rw [Function.update_of_ne he]
    · show (Function.update s.copies k _ j).obj = _
      by_cases he : j = k
      · rw [he, Function.update_self]
      · rw [Function.update_of_ne he]
  | abort t ht =>
    refine { hrefl with
      ws := fun t' => ?_
      tx := fun t' ht' => ⟨(inTx_stop (s := s) ht ht').1, rfl⟩ }
    show Function.update s.ws t [] t' = _ ∨ Function.update s.ws t [] t' = _
    by_cases he : t' = t
    · exact Or.inr (by rw [he, Function.update_self])
    · exact Or.inl (Function.update_of_ne he _ _)
  | tvlogReclaim t =>
    exact (quiet_tvlogReclaim s t).frame (detaches_tvlogReclaim s B t) (tvlogReclaim_sets s B t).1
  | ckptlogReclaim t wb =>
    obtain ⟨h1, h2⟩ := ckptlogReclaim_sets s B t wb
    refine (quiet_ckptlogReclaim s t wb).frame (detaches_ckptlogReclaim s B t wb) fun t' => ?_
    rw [h1, h2]
  | detect v => exact { hrefl with lastClk := le_max_left _ _ }
  | zombinize t =>
    unfold State.zombinize
    split
    · exact { hrefl with }
    · exact { hrefl with }
  | threadFree t =>
    unfold State.threadFree
    dsimp only
    split
    · exact { hrefl with }
    · exact { hrefl with }
  | reap t =>
    have hq := (reapLogs_frame s B t).1
    have hlogs : TxFrame s (s.reapLogs B t) := by
      have hsub : SubSets (s.syncClks t) (s.reapLogs B t) := subSets_reapLogs s B t
      exact { hq.frame (detaches_reapLogs s B t) hsub with }
    exact { reapThread_rule (P := TxFrame s) hlogs (fun _ => { hlogs with }) fun _ => { hlogs with }
      with }
  | _ => exact { hrefl with }

/-! ### Copies in the logs -/

theorem logged_dropSet (h : Logged s) {w : WrtSet} {rest : List WrtSet}
    (hw : s.tvOld t = w :: rest) : Logged (s.dropSet t w rest) := by
  refine ⟨h.top, fun o k hk hr => ?_⟩
  change (s.reclaimed k || decide (k ∈ w.copies)) = false at hr
  rw [Bool.or_eq_false_iff, decide_eq_false_iff_not] at hr
  obtain ⟨t', w', hw', hkw⟩ := h.kept o k hk hr.1
  refine ⟨t', w', ?_, hkw⟩
  show w' ∈ Function.update s.tvOld t rest t' ++ s.tvNew t'
  by_cases he : t' = t
  · subst he
    rw [Function.update_self]
    rw [hw, List.cons_append] at hw'
    rcases List.mem_cons.mp hw' with rfl | hw'
    · exact absurd hkw hr.2
    · exact hw'
  · rw [Function.update_of_ne he]
    exact hw'

theorem logged_rewind (h : Logged s) (t : ℕ) : Logged (s.rewind t) := by
  refine ⟨fun o k hk => ?_, fun o k hk hr => ?_⟩
  · obtain ⟨t', w, hw, hkw⟩ := h.top o k hk
    refine ⟨t', w, ?_, hkw⟩
    show w ∈ Function.update s.tvNew t _ t'
    by_cases he : t' = t
    · subst he
      rw [Function.update_self]
      exact List.mem_append_right _ hw
    · rw [Function.update_of_ne he]
      exact hw
  · obtain ⟨t', w, hw, hkw⟩ := h.kept o k hk hr
    refine ⟨t', w, ?_, hkw⟩
    show w ∈ Function.update s.tvOld t [] t' ++ Function.update s.tvNew t _ t'
    by_cases he : t' = t
    · subst he
      rw [Function.update_self, Function.update_self]
      exact hw
    · rw [Function.update_of_ne he, Function.update_of_ne he]
      exact hw

/-- The second loop does not pass the newest copy of an object: it would be checkpointed
and detached first. -/
theorem logged_passSet (h : Logged s) (hc : Core B s t W []) {t' : ℕ} {w : WrtSet}
    {rest : List WrtSet} (hw : s.tvNew t' = w :: rest) (hlt : ltClock B w.wrtClk (s.clks t').qp0)
    (hn : ∀ k ∈ w.copies, ¬ s.NeedsCkpt B t' k) : Logged (s.passSet t' w rest) := by
  refine ⟨fun o k hk => ?_, fun o k hk hr => ?_⟩
  · obtain ⟨t₁, w₁, hw₁, hkw⟩ := h.top o k hk
    refine ⟨t₁, w₁, ?_, hkw⟩
    show w₁ ∈ Function.update s.tvNew t' rest t₁
    by_cases he : t₁ = t'
    · subst he
      rw [Function.update_self]
      have hmem := hw₁
      rw [hw] at hw₁
      rcases List.mem_cons.mp hw₁ with rfl | hw₁
      · refine absurd ?_ (hn k hkw)
        obtain ⟨hhead, hprev, hst⟩ := hc.chains.head_of_pCopy hk
        have hkind := (hc.chains.mem o k (List.mem_of_mem_head? hhead)).2.2.1
        refine ⟨by rw [hkind]; simp, hst, ?_⟩
        rw [State.IsAtBorderline, if_pos hprev, (hc.member (List.mem_append_right _ hmem) hkw).2.1]
        exact hlt
      · exact hw₁
    · rw [Function.update_of_ne he]
      exact hw₁
  · obtain ⟨t₁, w₁, hw₁, hkw⟩ := h.kept o k hk hr
    refine ⟨t₁, w₁, ?_, hkw⟩
    show w₁ ∈ Function.update s.tvOld t' _ t₁ ++ Function.update s.tvNew t' rest t₁
    by_cases he : t₁ = t'
    · subst he
      rw [Function.update_self, Function.update_self, List.append_assoc, List.singleton_append,
        ← hw]
      exact hw₁
    · rw [Function.update_of_ne he, Function.update_of_ne he]
      exact hw₁

theorem logged_tvlogReclaim (h : Logged s) (hc : Core B s t W []) {t' : ℕ} (hs : s.Synced t') :
    Logged (s.tvlogReclaim B t') := by
  refine hc.tvlogReclaim_rule hs ?_ ?_ ?_ ?_ ?_ ?_ h
  · intro s₁ w k h₁ _ _ _ _
    unfold State.markTombstone
    dsimp only
    split
    · exact h₁
    · split <;> exact { h₁ with }
  · exact fun s₁ w rest h₁ hw => logged_dropSet h₁ hw
  · exact fun s₁ h₁ => logged_rewind h₁ t'
  · intro s₁ w k h₁ _ _ _ _ _ _
    exact { h₁ with top := fun o j hj => h₁.top o j (detaches_checkpoint s₁ t' w.wrtClk k o j hj) }
  · exact fun s₁ w rest h₁ hc₁ _ hw hlt hn => logged_passSet h₁ hc₁ hw hlt hn
  · exact fun s₁ h₁ => { h₁ with }

theorem logged_ckptlogReclaim (h : Logged s) (t wb : ℕ) : Logged (s.ckptlogReclaim B t wb) := by
  refine ckptlogReclaim_rule (P := Logged) (fun budget => ?_) h
  refine ckptlogReclaimX_rule (P := Logged) ?_ ?_ ?_ ?_ ?_ h
  · exact fun s₁ _ _ h₁ _ => { h₁ with }
  · intro s₁ h₁ _
    unfold State.noteMinCkpt
    split <;> exact { h₁ with }
  · exact fun s₁ _ _ h₁ _ _ _ _ => { h₁ with }
  · exact fun s₁ _ _ h₁ _ _ _ => { h₁ with }
  · exact fun s₁ h₁ => { h₁ with }

theorem logged_commitCopy (h : Logged s) (hk : ∃ w ∈ s.tvNew t, k ∈ w.copies) :
    Logged (s.commitCopy t W k) := by
  unfold State.commitCopy
  split
  · exact { h with }
  split
  · refine ⟨fun o j hj => ?_, fun o j hj hr => ?_⟩
    · change j ∈ Function.update s.pCopy (s.copies k).obj (some k) o at hj
      by_cases he : o = (s.copies k).obj
      · rw [he, Function.update_self, Option.mem_some_iff] at hj
        exact ⟨t, hj ▸ hk⟩
      · rw [Function.update_of_ne he] at hj
        exact h.top o j hj
    · change j ∈ Function.update s.hist (s.copies k).obj (k :: s.hist (s.copies k).obj) o at hj
      by_cases he : o = (s.copies k).obj
      · rw [he, Function.update_self] at hj
        rcases List.mem_cons.mp hj with rfl | hj
        · obtain ⟨w, hw, hkw⟩ := hk
          exact ⟨t, w, List.mem_append_right _ hw, hkw⟩
        · exact h.kept _ j hj hr
      · rw [Function.update_of_ne he] at hj
        exact h.kept o j hj hr
  · exact { h with }
  · exact { h with }

theorem logged_tvlogCommit (h : Logged s) (t W : ℕ) (info : β) :
    Logged (s.tvlogCommit t W info) := by
  have hset : Logged (s.commitSet t W info) := by
    have hmem : ∀ t', ∀ w ∈ s.tvNew t', w ∈ (s.commitSet t W info).tvNew t' := by
      intro t' w hw
      show w ∈ Function.update s.tvNew t _ t'
      by_cases he : t' = t
      · subst he
        rw [Function.update_self]
        exact List.mem_append_left _ hw
      · rw [Function.update_of_ne he]
        exact hw
    refine ⟨fun o k hk => ?_, fun o k hk hr => ?_⟩
    · obtain ⟨t', w, hw, hkw⟩ := h.top o k hk
      exact ⟨t', w, hmem t' w hw, hkw⟩
    · obtain ⟨t', w, hw, hkw⟩ := h.kept o k hk hr
      refine ⟨t', w, List.mem_append.mpr ?_, hkw⟩
      exact (List.mem_append.mp hw).imp_right (hmem t' w)
  have hnew : (⟨W, s.ws t⟩ : WrtSet) ∈ (s.commitSet t W info).tvNew t := by
    show _ ∈ Function.update s.tvNew t _ t
    rw [Function.update_self]
    exact List.mem_append_right _ (List.mem_singleton_self _)
  refine (foldl_commitCopy_rule (P := fun s₁ => Logged s₁ ∧ (⟨W, s.ws t⟩ : WrtSet) ∈ s₁.tvNew t)
    (fun s₁ k h₁ hk => ⟨logged_commitCopy h₁.1 ⟨_, h₁.2, hk⟩, ?_⟩) ⟨hset, hnew⟩).1
  rw [(commitCopy_frame s₁ t W k).2.2.2.1]
  exact h₁.2

theorem logged_step {op : Op α β} (h : Logged s) (hi : Inv B s) (hs : step B s op = some s') :
    Logged s' := by
  have hc := hi.core
  cases Step.of_step hs with
  | lock t o kind =>
    refine { h with kept := fun o' k hk hr => h.kept o' k hk ?_ }
    change Function.update s.reclaimed s.numCopies false k = false at hr
    have hlt := (hc.chains.mem o' k hk).1
    rw [Function.update_of_ne (by omega)] at hr
    exact hr
  | endTx t v info => exact { logged_tvlogCommit h t v info with }
  | tvlogReclaim t hm =>
    rcases hi.synced_or_idle hm with hsy | he
    · exact logged_tvlogReclaim h hc hsy
    · rw [he]
      exact h
  | ckptlogReclaim t wb => exact logged_ckptlogReclaim h t wb
  | zombinize t =>
    unfold State.zombinize
    split <;> exact { h with }
  | threadFree t =>
    unfold State.threadFree
    dsimp only
    split <;> exact { h with }
  | reap t =>
    have hlogs : Logged (s.reapLogs B t) := by
      refine hc.reapLogs_rule { h with } (fun _ _ h₁ => { h₁ with }) ?_ ?_
      · exact fun s₁ h₁ hc₁ hs₁ => logged_tvlogReclaim h₁ hc₁ hs₁
      · exact fun s₁ h₁ _ => logged_ckptlogReclaim h₁ t 0
    exact { reapThread_rule (P := Logged) hlogs (fun _ => { hlogs with }) fun _ => { hlogs with }
      with }
  | _ => exact { h with }

/-! ### Runs without `ts_free` -/

theorem noFree_ckptlogEnq (h : NoFree s) (t : ℕ) {x : CkptEntry α} (hx : x.isTomb = false) :
    NoFree (s.ckptlogEnq t x) := by
  refine { h with tomb := fun e he => ?_, mark := fun e => ?_ }
  · show (Function.update s.entries s.numEntries x e).isTomb = false
    by_cases hne : e = s.numEntries
    · rw [hne, Function.update_self]
      exact hx
    · rw [Function.update_of_ne hne]
      change e < s.numEntries + 1 at he
      exact h.tomb e (by omega)
  · show Function.update s.tombstone s.numEntries x.isTomb e = false
    by_cases hne : e = s.numEntries
    · rw [hne, Function.update_self]
      exact hx
    · rw [Function.update_of_ne hne]
      exact h.mark e

theorem noFree_tvlogReclaim (h : NoFree s) (hc : Core B s t W []) {t' : ℕ} (hs : s.Synced t') :
    NoFree (s.tvlogReclaim B t') := by
  refine hc.tvlogReclaim_rule hs ?_ ?_ ?_ ?_ ?_ ?_ h
  · intro s₁ w k h₁ hc₁ hw hk hkind
    have hlt := (hc₁.member (List.mem_append_left _ hw) hk).1
    exact absurd hkind (h₁.kind k hlt)
  · exact fun s₁ w rest h₁ _ => { h₁ with }
  · exact fun s₁ h₁ => { h₁ with }
  · exact fun s₁ w k h₁ _ _ _ _ _ _ => { noFree_ckptlogEnq h₁ t' rfl with }
  · exact fun s₁ w rest h₁ _ _ _ _ _ => { h₁ with }
  · exact fun s₁ h₁ => { h₁ with }

theorem noFree_ckptlogReclaim (h : NoFree s) (t wb : ℕ) : NoFree (s.ckptlogReclaim B t wb) := by
  refine ckptlogReclaim_rule (P := NoFree) (fun budget => ?_) h
  refine ckptlogReclaimX_rule (P := NoFree) ?_ ?_ ?_ ?_ ?_ h
  · intro s₁ e rest h₁ _
    refine { h₁ with ckFree := fun t' => ?_ }
    show (if s₁.tombstone e then _ else s₁.ckFree) t' = []
    rw [h₁.mark e]
    exact h₁.ckFree t'
  · intro s₁ h₁ _
    unfold State.noteMinCkpt
    split <;> exact { h₁ with }
  · exact fun s₁ _ _ h₁ _ _ _ _ => { h₁ with }
  · exact fun s₁ _ _ h₁ _ _ _ => { h₁ with }
  · exact fun s₁ h₁ => { h₁ with }

theorem noFree_ckptlogCleanup (h : NoFree s) (t u : ℕ) : NoFree (s.ckptlogCleanup B t u) := by
  refine { h with ckFree := fun t' => ?_, freed := ?_ }
  · show Function.update s.ckFree t _ t' = []
    rw [h.ckFree t]
    by_cases he : t' = t
    · rw [he, Function.update_self]
      rfl
    · rw [Function.update_of_ne he]
      exact h.ckFree t'
  · show s.freed ++ (s.ckFree t).filter _ = []
    rw [h.freed, h.ckFree t]
    rfl

/-- Changing a copy that stays what it is. -/
theorem noFree_update (h : NoFree s) {x : Copy α} (hx : x.kind = (s.copies k).kind) :
    NoFree { s with copies := Function.update s.copies k x } := by
  refine { h with kind := fun j hj => ?_ }
  show (Function.update s.copies k x j).kind ≠ .free
  by_cases he : j = k
  · rw [he, Function.update_self, hx]
    exact h.kind k (he ▸ hj)
  · rw [Function.update_of_ne he]
    exact h.kind j hj

theorem noFree_tvlogCommit (h : NoFree s) (t W : ℕ) (info : β) :
    NoFree (s.tvlogCommit t W info) := by
  refine foldl_commitCopy_rule (P := NoFree) (fun s₁ k h₁ _ => ?_) { h with }
  unfold State.commitCopy
  rw [h₁.txFree t, if_neg List.not_mem_nil]
  split
  · exact { noFree_update (k := k) (x := { s₁.copies k with
      wrtClk := W, pCopy := s₁.pCopy (s₁.copies k).obj, wrtClkNext := _ }) h₁ rfl with }
  · exact { noFree_update (k := k) (x := { s₁.copies k with wrtClk := W }) h₁ rfl with }
  · exact { noFree_update (k := k) (x := { s₁.copies k with wrtClk := W }) h₁ rfl with }

theorem noFree_stop (h : NoFree s) (t : ℕ) : NoFree (s.stop t) := by
  refine { h with txFree := fun t' => ?_ }
  show Function.update s.txFree t [] t' = []
  by_cases he : t' = t
  · rw [he, Function.update_self]
  · rw [Function.update_of_ne he]
    exact h.txFree t'

theorem noFree_step {op : Op α β} (h : NoFree s) (hi : Inv B s) (hop : ∀ t o, op ≠ .free t o)
    (hs : step B s op = some s') : NoFree s' := by
  have hc := hi.core
  cases Step.of_step hs with
  | lock t o kind _ hkind =>
    refine { h with kind := fun k hk => ?_ }
    show (Function.update s.copies s.numCopies _ k).kind ≠ .free
    change k < s.numCopies + 1 at hk
    by_cases he : k = s.numCopies
    · rw [he, Function.update_self]
      exact hkind
    · rw [Function.update_of_ne he]
      exact h.kind k (by omega)
  | write t k a => exact noFree_update h rfl
  | free t o => exact absurd rfl (hop t o)
  | endRead t v info => exact noFree_stop h t
  | endTx t v info => exact noFree_stop (noFree_tvlogCommit h t v info) t
  | abort t =>
    have hun : NoFree (s.unlockAbort t) := { h with }
    exact noFree_stop hun t
  | tvlogReclaim t hm =>
    rcases hi.synced_or_idle hm with hsy | he
    · exact noFree_tvlogReclaim h hc hsy
    · rw [he]
      exact h
  | ckptlogReclaim t wb => exact noFree_ckptlogReclaim h t wb
  | cleanup t => exact noFree_ckptlogCleanup h t _
  | zombinize t =>
    unfold State.zombinize
    split
    · exact { noFree_ckptlogCleanup (B := B) h t maxVersion with }
    · exact { h with }
  | threadFree t =>
    unfold State.threadFree
    dsimp only
    split
    · have hdead : NoFree { s with dead := Function.update s.dead t true } := { h with }
      exact { noFree_ckptlogCleanup (B := B) hdead t maxVersion with }
    · exact { h with }
  | reap t =>
    have hlogs : NoFree (s.reapLogs B t) := by
      refine hc.reapLogs_rule { h with } (fun _ _ h₁ => { h₁ with }) ?_ ?_
      · exact fun s₁ h₁ hc₁ hs₁ => noFree_tvlogReclaim h₁ hc₁ hs₁
      · exact fun s₁ h₁ _ => noFree_ckptlogReclaim h₁ t 0
    have hclean := noFree_ckptlogCleanup (B := B) hlogs t maxVersion
    exact { reapThread_rule (P := NoFree) hlogs (fun _ => { hclean with }) fun _ => { hclean with }
      with }
  | _ => exact { h with }

/-- The current master of an object without copies holds its newest version. -/
theorem NoFree.version_curLoc (h : NoFree s) (hcont : Contents org s) (hc : Core B s t W c)
    {o : ℕ} (hp : s.pCopy o = none) : s.version (s.curLoc o) = s.newest o := by
  have hver : s.version (s.curLoc o) = if s.curWrt o = 0 then none else some (s.curWrt o) := by
    rw [State.curLoc, State.curWrt]
    cases hcur : s.curAct o with
    | none => rfl
    | some e =>
      have he := hc.versions.entry o e hcur
      obtain ht | ⟨j, hj, hw, -⟩ := hcont.entry e he.1
      · rw [h.tomb e he.1] at ht
        cases ht
      · have hpos := hcont.pos _ j hj
        rw [hw] at hpos
        show some _ = if (s.entries e).wrtClk = 0 then none else some (s.entries e).wrtClk
        rw [if_neg (by omega)]
  rw [hver]
  rcases hcont.cur hc (o := o) (by rw [h.freed]; simp) with ⟨h0, -⟩ | ⟨j, hj, hw, -⟩ | ⟨e, he, ht⟩
  · -- the original content: there is no version, since the newest one would be detached
    rw [h0, if_pos rfl, State.newest]
    cases hh : s.hist o with
    | nil => rfl
    | cons k ks =>
      obtain ⟨-, htop⟩ := hc.chains.top o k (by rw [hh]; rfl)
      have hk : k ∈ s.hist o := by rw [hh]; exact List.mem_cons_self
      have hpos := hcont.pos o k hk
      rcases htop with ⟨htop, -⟩ | ⟨-, hd⟩
      · rw [hp] at htop
        cases htop
      · have hle := (hc.versions.detached o k hk hd).2
        omega
  · obtain ⟨k, ks, hh⟩ := List.exists_cons_of_ne_nil (List.ne_nil_of_mem hj)
    have hk : k ∈ s.hist o := by rw [hh]; exact List.mem_cons_self
    obtain ⟨-, htop⟩ := hc.chains.top o k (by rw [hh]; rfl)
    have hd : s.status k = .detached := by
      rcases htop with ⟨htop, -⟩ | ⟨-, hd⟩
      · rw [hp] at htop
        cases htop
      · exact hd
    have hle := (hc.versions.detached o k hk hd).2
    have hge : (s.copies j).wrtClk ≤ (s.copies k).wrtClk := by
      have hsort := hc.chains.sorted o
      rw [hh] at hj hsort
      rcases List.mem_cons.mp hj with rfl | hj
      · exact le_refl _
      · have := (List.pairwise_cons.mp hsort).1 j hj
        rw [ltClock_iff] at this
        omega
    have hpos := hcont.pos o k hk
    rw [if_neg (by omega), State.newest, hh]
    show some (s.curWrt o) = some (s.copies k).wrtClk
    rw [Option.some_inj]
    omega
  · rw [h.tomb e (hc.versions.entry o e he).1] at ht
    cases ht

/-! ### Dereferences -/

theorem Links.pCopy_mem {ks : List ℕ} (h : Links s ks) {j : ℕ} (hk : k ∈ ks)
    (hp : (s.copies k).pCopy = some j) : j ∈ ks := by
  induction ks with
  | nil => cases hk
  | cons i ks ih =>
    rcases List.mem_cons.mp hk with rfl | hk
    · have hl := h.1
      cases hh : ks.head? with
      | none =>
        rw [hh] at hl
        rw [hl.1] at hp
        cases hp
      | some i' =>
        rw [hh] at hl
        rcases hl with ⟨hl, -⟩ | ⟨hl, -⟩
        · rw [hl, Option.some_inj] at hp
          subst hp
          exact List.mem_cons_of_mem _ (List.mem_of_mem_head? hh)
        · rw [hl] at hp
          cases hp
    · exact List.mem_cons_of_mem _ (ih h.2 hk)

/-- A copy that the loop of `ts_deref` returns is a version that was not given back. -/
theorem Chains.walk_copy (h : Chains B s) {o j fuel : ℕ} (hk : k ∈ s.hist o)
    (hw : s.walk B t o fuel k = some (.copy j)) : j ∈ s.hist o ∧ s.reclaimed j = false := by
  have hcur : ∀ {i}, some (s.curLoc o) ≠ some (Loc.copy i) := by
    intro i hi
    rw [Option.some_inj, State.curLoc] at hi
    split at hi <;> cases hi
  induction fuel generalizing k with
  | zero => cases hw
  | succ fuel ih =>
    rw [State.walk] at hw
    split at hw
    · cases hw
    rename_i hr
    split at hw
    · obtain rfl := Loc.copy.inj (Option.some_inj.mp hw)
      exact ⟨hk, by simpa using hr⟩
    split at hw
    · exact absurd hw hcur
    split at hw
    · exact absurd hw hcur
    · rename_i i hi
      exact ih ((h.links o).pCopy_mem hk hi) hw

/-! ### What a commit does -/

/-- The objects of which the copies `ks` are new versions. -/
def State.written (s : State α β) (ks : List ℕ) : List ℕ :=
  (ks.filter fun k => (s.copies k).kind = .copy).map fun k => (s.copies k).obj

/-- The versions after `tvlog_commit`. -/
structure Committed (s : State α β) (t W : ℕ) (ks : List ℕ) (s' : State α β) : Prop where
  obj : ∀ j, (s'.copies j).obj = (s.copies j).obj
  kind : ∀ j, (s'.copies j).kind = (s.copies j).kind
  other : ∀ j ∉ s.ws t, s'.copies j = s.copies j
  new : ∀ o, ∀ k ∈ s.ws t, k ∉ ks → (s.copies k).kind = .copy → (s.copies k).obj = o →
    s'.hist o = k :: s.hist o ∧ (s'.copies k).wrtClk = W
  same : ∀ o, (∀ k ∈ s.ws t, k ∉ ks → (s.copies k).kind = .copy → (s.copies k).obj ≠ o) →
    s'.hist o = s.hist o

theorem committed_tvlogCommit (h : NoFree s) (hc : Core B s t W []) (hv : s.Reading B W)
    (hW : s.localClk t < W) (info : β) : Committed s t W [] (s.tvlogCommit t W info) := by
  have hlock : ∀ {k j}, k ∈ s.ws t → j ∈ s.ws t → (s.copies k).obj = (s.copies j).obj → k = j := by
    intro k j hk hj he
    have h1 := hc.locks.lock t k (Or.inl hk)
    have h2 := hc.locks.lock t j (Or.inl hj)
    rw [he, h2, Option.some_inj] at h1
    exact h1.symm
  refine (commit_induction (P := fun s₁ ks => (∀ k ∈ ks, k ∈ s.ws t) ∧ (∀ t, s₁.txFree t = []) ∧
      Committed s t W ks s₁) ?_
    (s.ws t) (s.commitSet t W info) (core_commitSet hc hv) (Function.update_self _ _ _)
    (hc.locks.nodup t) hW (le_max_right _ _) ⟨fun _ => id, h.txFree, ?_⟩).2.2.2.2
  · rintro s₁ k ks - - hnd - - ⟨hsub, hfree, h₁⟩
    have hk := hsub k List.mem_cons_self
    -- what is changed is the copy `k`, and its object and kind stay
    have hcopies : ∀ x : Copy α, x.obj = (s₁.copies k).obj → x.kind = (s₁.copies k).kind →
        (∀ j, (Function.update s₁.copies k x j).obj = (s.copies j).obj) ∧
        (∀ j, (Function.update s₁.copies k x j).kind = (s.copies j).kind) ∧
        ∀ j ∉ s.ws t, Function.update s₁.copies k x j = s.copies j := by
      intro x hobj hkind
      refine ⟨fun j => ?_, fun j => ?_, fun j hj => ?_⟩
      · by_cases he : j = k
        · rw [he, Function.update_self, hobj, h₁.obj]
        · rw [Function.update_of_ne he, h₁.obj]
      · by_cases he : j = k
        · rw [he, Function.update_self, hkind, h₁.kind]
        · rw [Function.update_of_ne he, h₁.kind]
      · have hne : j ≠ k := by
          rintro rfl
          exact hj hk
        rw [Function.update_of_ne hne, h₁.other j hj]
    have hkeep : ∀ j ∈ s.ws t, j ∉ ks → j = k ∨ j ∉ k :: ks := by
      intro j _ hj
      by_cases he : j = k
      · exact Or.inl he
      · exact Or.inr fun hm => (List.mem_cons.mp hm).elim he hj
    refine ⟨fun j hj => hsub j (List.mem_cons_of_mem _ hj), ?_, ?_⟩
    · rw [State.commitCopy, hfree t, if_neg List.not_mem_nil]
      split <;> exact hfree
    rw [State.commitCopy, hfree t, if_neg List.not_mem_nil]
    have hconst : (s₁.copies k).kind ≠ .copy → Committed s t W ks (s₁.commitConst W k) := by
      intro hkind
      obtain ⟨h1, h2, h3⟩ := hcopies { s₁.copies k with wrtClk := W } rfl rfl
      refine ⟨h1, h2, h3, fun o j hj hjs hjk hjo => ?_, fun o ho => h₁.same o ?_⟩
      · rcases hkeep j hj hjs with rfl | hjs
        · exact absurd (h₁.kind j ▸ hjk) hkind
        · obtain ⟨h4, h5⟩ := h₁.new o j hj hjs hjk hjo
          refine ⟨h4, ?_⟩
          show (Function.update s₁.copies k _ j).wrtClk = W
          have hne : j ≠ k := fun he => hjs (he ▸ List.mem_cons_self)
          rw [Function.update_of_ne hne]
          exact h5
      · exact fun j hj hjs => ho j hj fun hm => hjs (List.mem_cons_of_mem _ hm)
    split
    · rename_i hkind
      obtain ⟨h1, h2, h3⟩ := hcopies
        { s₁.copies k with
          wrtClk := W
          pCopy := s₁.pCopy (s₁.copies k).obj
          wrtClkNext := s₁.clkNext (s₁.copies k).obj } rfl rfl
      refine ⟨h1, h2, h3, fun o j hj hjs hjk hjo => ?_, fun o ho => ?_⟩
      · show Function.update s₁.hist _ _ o = _ ∧ (Function.update s₁.copies k _ j).wrtClk = W
        rcases hkeep j hj hjs with rfl | hjs
        · rw [h₁.obj, hjo, Function.update_self, Function.update_self]
          refine ⟨?_, rfl⟩
          rw [h₁.same o fun i hi his _ hio => ?_]
          -- another new version of the object would be locked too
          exact his (hlock hi hj (hio.trans hjo.symm) ▸ List.mem_cons_self)
        · obtain ⟨h4, h5⟩ := h₁.new o j hj hjs hjk hjo
          have hne : j ≠ k := fun he => hjs (he ▸ List.mem_cons_self)
          have hno : o ≠ (s₁.copies k).obj := by
            rw [h₁.obj, ← hjo]
            exact fun he => hne (hlock hj hk he)
          rw [Function.update_of_ne hne, Function.update_of_ne hno]
          exact ⟨h4, h5⟩
      · have hno : o ≠ (s₁.copies k).obj := by
          rw [h₁.obj]
          exact (ho k hk (List.nodup_cons.mp hnd).1 (h₁.kind k ▸ hkind)).symm
        show Function.update s₁.hist _ _ o = _
        rw [Function.update_of_ne hno]
        exact h₁.same o fun j hj hjs => ho j hj fun hm => hjs (List.mem_cons_of_mem _ hm)
    · rename_i hkind
      exact hconst (by rw [hkind]; simp)
    · rename_i hkind
      exact hconst (by rw [hkind]; simp)
  · exact ⟨fun _ => rfl, fun _ => rfl, fun _ _ => rfl, fun _ k hk hk' => absurd hk hk',
      fun _ _ => rfl⟩

theorem mem_written {ks : List ℕ} {o : ℕ} : o ∈ s.written ks ↔
    ∃ k ∈ ks, (s.copies k).kind = .copy ∧ (s.copies k).obj = o := by
  simp only [State.written, List.mem_map, List.mem_filter, decide_eq_true_eq, and_assoc]

/-- A copy that a transaction holds is not a version yet. -/
theorem Core.not_hist_of_held (hc : Core B s t W c) {t' o : ℕ} (hk : k ∈ s.ws t') :
    k ∉ s.hist o := by
  intro ho
  have h1 := (hc.locks.opn t' k (Or.inl hk)).1
  have h2 := (hc.chains.mem o k ho).2.2.2
  have h3 := hc.clocks.max
  omega

theorem Committed.newest (h : Committed s t W [] s') (hc : Core B s t W []) (o : ℕ) :
    s'.newest o = if o ∈ s.written (s.ws t) then some W else s.newest o := by
  split
  · rename_i ho
    obtain ⟨k, hk, hkind, hobj⟩ := mem_written.mp ho
    obtain ⟨h1, h2⟩ := h.new o k hk List.not_mem_nil hkind hobj
    rw [State.newest, h1, List.head?_cons, Option.map_some, h2]
  · rename_i ho
    have hsame := h.same o fun k hk _ hkind hobj => ho (mem_written.mpr ⟨k, hk, hkind, hobj⟩)
    rw [State.newest, State.newest, hsame]
    refine Option.map_congr fun k hk => ?_
    rw [h.other k fun hw => hc.not_hist_of_held hw (List.mem_of_mem_head? hk)]

theorem tvlogCommit_ws (s : State α β) (t W : ℕ) (info : β) :
    (s.tvlogCommit t W info).ws = Function.update s.ws t [] ∧
      (s.tvlogCommit t W info).lastClk = max s.lastClk W := by
  refine foldl_commitCopy_rule (P := fun s₁ => s₁.ws = Function.update s.ws t [] ∧
    s₁.lastClk = max s.lastClk W) (fun s₁ k h₁ _ => ?_) ⟨rfl, rfl⟩
  obtain ⟨h1, -, h3, -⟩ := commitCopy_frame s₁ t W k
  rw [h1, h3]
  exact h₁

theorem mem_ws_tvlogCommit {info : β} {t' : ℕ} (hk : k ∈ (s.tvlogCommit t W info).ws t') :
    k ∈ s.ws t' := by
  rw [(tvlogCommit_ws s t W info).1] at hk
  by_cases he : t' = t
  · rw [he, Function.update_self] at hk
    cases hk
  · rw [Function.update_of_ne he] at hk
    exact hk

/-- A commit moves the copies of the write set to the log, where they already are. -/
theorem State.logged_tvlogCommit {info : β} (t' : ℕ) : (s.tvlogCommit t W info).logged t' =
    if t' = t then s.logged t ++ s.ws t else s.logged t' := by
  obtain ⟨hold, hnew⟩ := tvlogCommit_sets s t W info
  rw [State.logged, hold, hnew]
  by_cases he : t' = t
  · subst he
    rw [if_pos rfl, Function.update_self, ← List.append_assoc, List.flatMap_append, State.logged]
    simp
  · rw [if_neg he, Function.update_of_ne he, State.logged]

theorem State.inLog_tvlogCommit {info : β} (t' : ℕ) :
    (s.tvlogCommit t W info).inLog t' = s.inLog t' := by
  rw [State.inLog, State.logged_tvlogCommit, (tvlogCommit_ws s t W info).1]
  by_cases he : t' = t
  · subst he
    rw [if_pos rfl, Function.update_self, List.append_nil]
    rfl
  · rw [if_neg he, Function.update_of_ne he]
    rfl

end TimeStone.System
