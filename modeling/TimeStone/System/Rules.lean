/-
Invariant rules for the loops of log reclamation.

A property that every iteration preserves is preserved by the whole reclamation.  The
rules say once what an iteration may rely on: which write set or entry is at the front
of the log, and which test of the loop has been passed.

* `tvlogReclaim_rule` — the two loops of `tvlog_reclaim_x`;
* `ckptlogReclaim_rule` — the two loops of `ckptlog_reclaim_x`;
* `foldl_commitCopy_rule` — the loop over the copies of a write set;
* `reapLogs_rule`, `reapThread_rule` — what is done to a zombie;
* `Quiet` — what log reclamation leaves alone;
* `Step` — the steps of the system with their guards.
-/
import TimeStone.System.Qp

namespace TimeStone.System

variable {α β : Type*} {B t : ℕ} {s s' : State α β}

/-! ### The transient version log -/

/-- Marking a free record keeps the others marked. -/
theorem marked_update {f : ℕ → Status} (k : ℕ) {j : ℕ} (h : f j = .tombstoneMarked) :
    Function.update f k .tombstoneMarked j = .tombstoneMarked := by
  by_cases he : j = k
  · rw [he, Function.update_self]
  · rw [Function.update_of_ne he, h]

theorem tvOld_markTombstone (s : State α β) (t wrt k : ℕ) :
    (s.markTombstone t wrt k).tvOld = s.tvOld := by
  unfold State.markTombstone
  dsimp only
  split
  · rfl
  · split <;> rfl

theorem reclaimSet_rule {P : State α β → Prop} {mode : TvReq} {wrt : ℕ} {ks : List ℕ}
    (hmark : ∀ s k, P s → k ∈ ks → (s.copies k).kind = .free → P (s.markTombstone t wrt k)) :
    ∀ {s : State α β}, P s → P (State.reclaimSet B mode t wrt ks s).1 := by
  induction ks with
  | nil => exact fun h => h
  | cons k ks ih =>
    intro s h
    have ih' : ∀ {s : State α β}, P s → P (State.reclaimSet B mode t wrt ks s).1 :=
      ih fun s k' hs hk' => hmark s k' hs (List.mem_cons_of_mem _ hk')
    unfold State.reclaimSet
    split
    · rename_i hk
      exact ih' (hmark s k h List.mem_cons_self hk)
    · split
      · exact h
      · exact ih' h
    · split
      · exact h
      · exact ih' h

theorem reclaimLoop_rule {P : State α β → Prop} {mode : TvReq}
    (hmark : ∀ s w rest k, P s → s.tvOld t = w :: rest → k ∈ w.copies →
      (s.copies k).kind = .free → P (s.markTombstone t w.wrtClk k))
    (hdrop : ∀ s w rest, P s → s.tvOld t = w :: rest → P (s.dropSet t w rest)) {ws : List WrtSet} :
    ∀ {s : State α β}, P s → s.tvOld t = ws → P (State.reclaimLoop B mode t ws s) := by
  induction ws with
  | nil => exact fun h _ => h
  | cons w rest ih =>
    intro s h hws
    have hset : P (State.reclaimSet B mode t w.wrtClk w.copies s).1 ∧
        (State.reclaimSet B mode t w.wrtClk w.copies s).1.tvOld t = w :: rest := by
      refine reclaimSet_rule (P := fun s' => P s' ∧ s'.tvOld t = w :: rest) ?_ ⟨h, hws⟩
      rintro s' k ⟨hs, hw⟩ hk hkind
      refine ⟨hmark s' w rest k hs hw hk hkind, ?_⟩
      rw [tvOld_markTombstone]
      exact hw
    unfold State.reclaimLoop
    dsimp only
    split
    · exact hset.1
    · refine ih (hdrop _ w rest hset.1 hset.2) ?_
      exact Function.update_self _ _ _

theorem needsCkpt_checkpoint {wrt k k' : ℕ} (s : State α β) (h : ¬ s.NeedsCkpt B t k') :
    ¬ (s.checkpoint t wrt k).NeedsCkpt B t k' := by
  rintro ⟨h1, h2, h3⟩
  refine h ⟨h1, fun hd => h2 ?_, h3⟩
  show Function.update s.status k .detached k' = .detached
  by_cases he : k' = k
  · rw [he, Function.update_self]
  · rw [Function.update_of_ne he]
    exact hd

theorem not_needsCkpt_self {wrt k : ℕ} (s : State α β) :
    ¬ (s.checkpoint t wrt k).NeedsCkpt B t k := by
  rintro ⟨-, h, -⟩
  exact h (Function.update_self _ _ _)

theorem ckptSet_rule {P : State α β → Prop} {mode : TvReq} {wrt : ℕ} {ks : List ℕ}
    (hck : ∀ s k, mode = .ckpt → P s → k ∈ ks → s.NeedsCkpt B t k → P (s.checkpoint t wrt k)) :
    ∀ {s : State α β}, P s → P (State.ckptSet B mode t wrt ks s).1 := by
  induction ks with
  | nil => exact fun h => h
  | cons k ks ih =>
    intro s h
    have ih' : ∀ {s : State α β}, P s → P (State.ckptSet B mode t wrt ks s).1 :=
      ih fun s k' hm hs hk' => hck s k' hm hs (List.mem_cons_of_mem _ hk')
    unfold State.ckptSet
    split
    · rename_i hn
      split
      · rename_i hm
        exact ih' (hck s k hm h List.mem_cons_self hn)
      · exact h
    · exact ih' h

/-- Where the loop over a write set does not stop, nothing is left to checkpoint in it. -/
theorem ckptSet_done {mode : TvReq} {wrt : ℕ} {ks : List ℕ} : ∀ {s : State α β},
    (State.ckptSet B mode t wrt ks s).2 = false →
      ∀ k ∈ ks, ¬ (State.ckptSet B mode t wrt ks s).1.NeedsCkpt B t k := by
  induction ks with
  | nil =>
    intro s _ k hk
    cases hk
  | cons k ks ih =>
    intro s
    have hkeep : ∀ s₁ : State α β, ¬ s₁.NeedsCkpt B t k →
        ¬ (State.ckptSet B mode t wrt ks s₁).1.NeedsCkpt B t k := by
      intro s₁ h₁
      exact ckptSet_rule (P := fun s => ¬ s.NeedsCkpt B t k)
        (fun s' _ _ hs _ _ => needsCkpt_checkpoint s' hs) h₁
    unfold State.ckptSet
    split
    · split
      · intro hf k' hk'
        rcases List.mem_cons.mp hk' with rfl | hk'
        · exact hkeep _ (not_needsCkpt_self s)
        · exact ih hf k' hk'
      · intro hf
        cases hf
    · rename_i hn
      intro hf k' hk'
      rcases List.mem_cons.mp hk' with rfl | hk'
      · exact hkeep _ hn
      · exact ih hf k' hk'

theorem ckptSet_ckpt {wrt : ℕ} {ks : List ℕ} : ∀ {s : State α β},
    (State.ckptSet B .ckpt t wrt ks s).2 = false := by
  induction ks with
  | nil => exact rfl
  | cons k ks ih =>
    intro s
    unfold State.ckptSet
    split
    · rw [if_pos rfl]
      exact ih
    · exact ih

theorem ckptLoop_rule {P : State α β → Prop} {mode : TvReq}
    (hck : ∀ s w rest k, mode = .ckpt → P s → s.tvNew t = w :: rest → k ∈ w.copies →
      ltClock B w.wrtClk (s.clks t).qp0 → s.NeedsCkpt B t k → P (s.checkpoint t w.wrtClk k))
    (hpass : ∀ s w rest, P s → s.tvNew t = w :: rest → ltClock B w.wrtClk (s.clks t).qp0 →
      (∀ k ∈ w.copies, ¬ s.NeedsCkpt B t k) → P (s.passSet t w rest)) {ws : List WrtSet} :
    ∀ {s : State α β}, P s → s.tvNew t = ws → P (State.ckptLoop B mode t ws s) := by
  induction ws with
  | nil => exact fun h _ => h
  | cons w rest ih =>
    intro s h hws
    unfold State.ckptLoop
    split
    · exact h
    rename_i hlt
    rw [gteClock, not_not] at hlt
    have hset : P (State.ckptSet B mode t w.wrtClk w.copies s).1 ∧
        (State.ckptSet B mode t w.wrtClk w.copies s).1.tvNew t = w :: rest ∧
        ltClock B w.wrtClk ((State.ckptSet B mode t w.wrtClk w.copies s).1.clks t).qp0 := by
      refine ckptSet_rule (P := fun s' => P s' ∧ s'.tvNew t = w :: rest ∧
        ltClock B w.wrtClk (s'.clks t).qp0) ?_ ⟨h, hws, hlt⟩
      rintro s' k hm ⟨hs, hw, hl⟩ hk hn
      exact ⟨hck s' w rest k hm hs hw hk hl hn, hw, hl⟩
    dsimp only
    split
    · exact hset.1
    · rename_i hstop
      refine ih (hpass _ w rest hset.1 hset.2.1 hset.2.2 ?_) (Function.update_self _ _ _)
      exact ckptSet_done (by simpa using hstop)

/-- A checkpoint stops at the first write set that is not below its clock. -/
theorem ckptLoop_ckpt {ws : List WrtSet} : ∀ {s : State α β}, s.tvNew t = ws →
    ∀ w ∈ ((State.ckptLoop B .ckpt t ws s).tvNew t).head?,
      gteClock B w.wrtClk ((State.ckptLoop B .ckpt t ws s).clks t).qp0 := by
  induction ws with
  | nil =>
    intro s hws w hw
    rw [State.ckptLoop, hws] at hw
    cases hw
  | cons w rest ih =>
    intro s hws
    unfold State.ckptLoop
    split
    · rename_i hge
      intro w' hw'
      rw [hws] at hw'
      cases hw'
      exact hge
    · dsimp only
      rw [ckptSet_ckpt]
      exact ih (Function.update_self _ _ _)

/-- The rule for `tvlog_reclaim`: `P` in the first loop, `Q` in the second one and `R` in
the end. -/
theorem tvlogReclaim_phases {P Q R : State α β → Prop}
    (hmark : ∀ s w rest k, P s → s.tvOld t = w :: rest → k ∈ w.copies →
      (s.copies k).kind = .free → P (s.markTombstone t w.wrtClk k))
    (hdrop : ∀ s w rest, P s → s.tvOld t = w :: rest → P (s.dropSet t w rest))
    (hrewind : ∀ s, P s → Q (s.rewind t))
    (hck : ∀ s₁ w rest k, (s.req t).tvlog = .ckpt → Q s₁ → s₁.tvNew t = w :: rest →
      k ∈ w.copies → ltClock B w.wrtClk (s₁.clks t).qp0 → s₁.NeedsCkpt B t k →
      Q (s₁.checkpoint t w.wrtClk k))
    (hpass : ∀ s w rest, Q s → s.tvNew t = w :: rest → ltClock B w.wrtClk (s.clks t).qp0 →
      (∀ k ∈ w.copies, ¬ s.NeedsCkpt B t k) → Q (s.passSet t w rest))
    (hserved : ∀ s₁, Q s₁ → ((s.req t).tvlog = .ckpt →
      ∀ w ∈ (s₁.tvNew t).head?, gteClock B w.wrtClk (s₁.clks t).qp0) → R (s₁.tvServed t))
    (hnone : (s.req t).tvlog = .none → R s) (h : P s) : R (s.tvlogReclaim B t) := by
  have hx : ∀ mode, mode = (s.req t).tvlog → R (s.tvlogReclaimX B mode t) := by
    intro mode hmode
    have h1 : Q ((State.reclaimLoop B mode t (s.tvOld t) s).rewind t) :=
      hrewind _ (reclaimLoop_rule hmark hdrop h rfl)
    refine hserved _ (ckptLoop_rule (fun s₁ w rest k hm => hck s₁ w rest k (hmode ▸ hm)) hpass h1
      rfl) fun hreq => ?_
    rw [hreq] at hmode
    subst hmode
    exact ckptLoop_ckpt rfl
  unfold State.tvlogReclaim
  split
  · rename_i hn
    exact hnone hn
  · exact hx _ rfl

/-- The rule for `tvlog_reclaim` with one invariant. -/
theorem tvlogReclaim_rule {P : State α β → Prop}
    (hmark : ∀ s w rest k, P s → s.tvOld t = w :: rest → k ∈ w.copies →
      (s.copies k).kind = .free → P (s.markTombstone t w.wrtClk k))
    (hdrop : ∀ s w rest, P s → s.tvOld t = w :: rest → P (s.dropSet t w rest))
    (hrewind : ∀ s, P s → P (s.rewind t))
    (hck : ∀ s w rest k, P s → s.tvNew t = w :: rest → k ∈ w.copies →
      ltClock B w.wrtClk (s.clks t).qp0 → s.NeedsCkpt B t k → P (s.checkpoint t w.wrtClk k))
    (hpass : ∀ s w rest, P s → s.tvNew t = w :: rest → ltClock B w.wrtClk (s.clks t).qp0 →
      (∀ k ∈ w.copies, ¬ s.NeedsCkpt B t k) → P (s.passSet t w rest))
    (hserved : ∀ s₁, P s₁ → ((s.req t).tvlog = .ckpt →
      ∀ w ∈ (s₁.tvNew t).head?, gteClock B w.wrtClk (s₁.clks t).qp0) → P (s₁.tvServed t))
    (h : P s) : P (s.tvlogReclaim B t) :=
  tvlogReclaim_phases hmark hdrop hrewind (fun s w rest k _ => hck s w rest k) hpass hserved
    (fun _ => h) h

/-! ### The checkpoint log -/

theorem dropLoop_rule {P : State α β → Prop}
    (hdrop : ∀ s e rest, P s → s.ckOld t = e :: rest → P (s.dropEntry t e rest)) {es : List ℕ} :
    ∀ {s : State α β}, P s → s.ckOld t = es →
      P (State.dropLoop t es s) ∧ (State.dropLoop t es s).ckOld t = [] := by
  induction es with
  | nil => exact fun h he => ⟨h, he⟩
  | cons e rest ih =>
    intro s h he
    exact ih (hdrop s e rest h he) (Function.update_self _ _ _)

theorem writebackLoop_rule {P : State α β → Prop}
    (hwb : ∀ s e rest, P s → s.ckNew t = e :: rest →
      ¬ gtClock B (s.entries e).ckptSClk (s.clks t).qp2 → s.curAct (s.entries e).obj = some e →
      s.tombstone e = false → P ((s.writeback e).passEntry t e rest))
    (hpass : ∀ s e rest, P s → s.ckNew t = e :: rest →
      ¬ gtClock B (s.entries e).ckptSClk (s.clks t).qp2 →
      ¬ (s.curAct (s.entries e).obj = some e ∧ s.tombstone e = false) →
      P (s.passEntry t e rest)) {es : List ℕ} :
    ∀ {s : State α β} {budget : Option ℕ}, P s → s.ckNew t = es →
      P (State.writebackLoop B t es budget s) := by
  induction es with
  | nil => exact fun h _ => h
  | cons e rest ih =>
    intro s budget h he
    unfold State.writebackLoop
    split
    · exact h
    rename_i hgt
    split
    · rename_i hcur
      split
      · exact h
      · exact ih (hwb s e rest h he hgt hcur.1 hcur.2) (Function.update_self _ _ _)
    · rename_i hcur
      exact ih (hpass s e rest h he hgt hcur) (Function.update_self _ _ _)

/-- The rule for `ckptlog_reclaim_x`: `P` in the first loop, `Q` in the second one and `R`
in the end. -/
theorem ckptlogReclaimX_phases {P Q R : State α β → Prop}
    (hdrop : ∀ s e rest, P s → s.ckOld t = e :: rest → P (s.dropEntry t e rest))
    (hnote : ∀ s, P s → s.ckOld t = [] → Q (s.noteMinCkpt t))
    (hwb : ∀ s e rest, Q s → s.ckNew t = e :: rest →
      ¬ gtClock B (s.entries e).ckptSClk (s.clks t).qp2 → s.curAct (s.entries e).obj = some e →
      s.tombstone e = false → Q ((s.writeback e).passEntry t e rest))
    (hpass : ∀ s e rest, Q s → s.ckNew t = e :: rest →
      ¬ gtClock B (s.entries e).ckptSClk (s.clks t).qp2 →
      ¬ (s.curAct (s.entries e).obj = some e ∧ s.tombstone e = false) →
      Q (s.passEntry t e rest))
    (hserved : ∀ s, Q s → R (s.ckServed t)) {budget : Option ℕ} (h : P s) :
    R (s.ckptlogReclaimX B t budget) := by
  obtain ⟨h1, h2⟩ := dropLoop_rule hdrop h rfl
  exact hserved _ (writebackLoop_rule hwb hpass (hnote _ h1 h2) rfl)

/-- The rule for `ckptlog_reclaim_x` with one invariant. -/
theorem ckptlogReclaimX_rule {P : State α β → Prop}
    (hdrop : ∀ s e rest, P s → s.ckOld t = e :: rest → P (s.dropEntry t e rest))
    (hnote : ∀ s, P s → s.ckOld t = [] → P (s.noteMinCkpt t))
    (hwb : ∀ s e rest, P s → s.ckNew t = e :: rest →
      ¬ gtClock B (s.entries e).ckptSClk (s.clks t).qp2 → s.curAct (s.entries e).obj = some e →
      s.tombstone e = false → P ((s.writeback e).passEntry t e rest))
    (hpass : ∀ s e rest, P s → s.ckNew t = e :: rest →
      ¬ gtClock B (s.entries e).ckptSClk (s.clks t).qp2 →
      ¬ (s.curAct (s.entries e).obj = some e ∧ s.tombstone e = false) →
      P (s.passEntry t e rest))
    (hserved : ∀ s, P s → P (s.ckServed t)) {budget : Option ℕ} (h : P s) :
    P (s.ckptlogReclaimX B t budget) :=
  ckptlogReclaimX_phases hdrop hnote hwb hpass hserved h

/-- The rule for `ckptlog_reclaim`. -/
theorem ckptlogReclaim_rule {P : State α β → Prop} {wb : ℕ}
    (hx : ∀ budget, P (s.ckptlogReclaimX B t budget)) (h : P s) :
    P (s.ckptlogReclaim B t wb) := by
  unfold State.ckptlogReclaim
  split
  · exact h
  · exact hx _
  · exact hx _
  · exact hx _

/-! ### Commits and zombies -/

/-- The rule for the copies of a write set that commits. -/
theorem foldl_commitCopy_rule {P : State α β → Prop} {W : ℕ} {ks : List ℕ}
    (hstep : ∀ s k, P s → k ∈ ks → P (s.commitCopy t W k)) :
    ∀ {s : State α β}, P s → P (ks.foldl (fun s k => s.commitCopy t W k) s) := by
  induction ks with
  | nil => exact fun h => h
  | cons k ks ih =>
    intro s h
    rw [List.foldl_cons]
    exact ih (fun s k' hs hk' => hstep s k' hs (List.mem_cons_of_mem _ hk'))
      (hstep s k h List.mem_cons_self)

theorem req_forceReq (s : State α β) (t : ℕ) (r : Reclaim) : (s.forceReq t r).req t = r :=
  Function.update_self _ _ _

/-- The rule for the logs of a zombie: `P` until the transient version log is
reclaimed, `Q` until the checkpoint log is, and `R` in the end. -/
theorem reapLogs_phases {P Q R : State α β → Prop} (hsync : P (s.syncClks t))
    (hforce : ∀ s r, P s → P (s.forceReq t r))
    (hskip : ∀ s, P s → s.tvOld t = [] ∧ s.tvNew t = [] → Q s)
    (htv : ∀ s, P s → (s.req t).tvlog = .ckpt → Q (s.tvlogReclaim B t))
    (hforce' : ∀ s r, Q s → Q (s.forceReq t r))
    (hskip' : ∀ s, Q s → s.ckOld t = [] ∧ s.ckNew t = [] → R s)
    (hck : ∀ s, Q s → (s.req t).ckptlog = .writebackAll → R (s.ckptlogReclaim B t 0)) :
    R (s.reapLogs B t) := by
  unfold State.reapLogs
  dsimp only
  have h1 : Q (if ((s.syncClks t).tvOld t).isEmpty ∧ ((s.syncClks t).tvNew t).isEmpty
      then s.syncClks t else ((s.syncClks t).forceReq t
        { (s.syncClks t).req t with tvlog := .ckpt }).tvlogReclaim B t) := by
    split
    · rename_i hempty
      rw [List.isEmpty_iff, List.isEmpty_iff] at hempty
      exact hskip _ hsync hempty
    · refine htv _ (hforce _ _ hsync) ?_
      rw [req_forceReq]
  generalize (if ((s.syncClks t).tvOld t).isEmpty ∧ ((s.syncClks t).tvNew t).isEmpty
      then s.syncClks t else ((s.syncClks t).forceReq t
        { (s.syncClks t).req t with tvlog := .ckpt }).tvlogReclaim B t) = s₁ at h1 ⊢
  split
  · rename_i hempty
    rw [List.isEmpty_iff, List.isEmpty_iff] at hempty
    exact hskip' _ h1 hempty
  · refine hck _ (hforce' _ _ h1) ?_
    rw [req_forceReq]

/-- The rule for the logs of a zombie with one invariant. -/
theorem reapLogs_rule {P : State α β → Prop} (hsync : P (s.syncClks t))
    (hforce : ∀ s r, P s → P (s.forceReq t r))
    (htv : ∀ s, P s → (s.req t).tvlog = .ckpt → P (s.tvlogReclaim B t))
    (hck : ∀ s, P s → P (s.ckptlogReclaim B t 0)) : P (s.reapLogs B t) :=
  reapLogs_phases hsync hforce (fun _ h _ => h) htv hforce (fun _ h _ => h) fun s h _ => hck s h

/-- The rule for a zombie. -/
theorem reapThread_rule {P : State α β → Prop} (h : P (s.reapLogs B t))
    (hdestroy : (s.reapLogs B t).LogsEmpty t → P ((s.reapLogs B t).destroyLogs B t))
    (hgone : (s.reapLogs B t).LogsEmpty t → P { (s.reapLogs B t).destroyLogs B t with
      life := Function.update (s.reapLogs B t).life t .gone }) : P (s.reapThread B t) := by
  unfold State.reapThread
  dsimp only
  split
  · rename_i hempty
    split
    · exact hgone hempty
    · exact hdestroy hempty
  · exact h

/-! ### What reclamation leaves alone -/

/-- Log reclamation touches no lock, no transaction, no operation, no history of versions
and no clock but `__min_ckpt_reclaimed`. -/
structure Quiet (s s' : State α β) : Prop where
  pLock : s'.pLock = s.pLock
  copies : s'.copies = s.copies
  numCopies : s'.numCopies = s.numCopies
  wrtClkPrev : s'.wrtClkPrev = s.wrtClkPrev
  tids : s'.tids = s.tids
  life : s'.life = s.life
  runCnt : s'.runCnt = s.runCnt
  localClk : s'.localClk = s.localClk
  ws : s'.ws = s.ws
  txFree : s'.txFree = s.txFree
  qpRunCnt : s'.qpRunCnt = s.qpRunCnt
  needWait : s'.needWait = s.needWait
  oplog : s'.oplog = s.oplog
  destroyed : s'.destroyed = s.destroyed
  phase : s'.phase = s.phase
  qpClks : s'.qpClks = s.qpClks
  nvmLastCkpt : s'.nvmLastCkpt = s.nvmLastCkpt
  lastClk : s'.lastClk = s.lastClk
  round : s'.round = s.round
  hist : s'.hist = s.hist
  freeClk : s'.freeClk = s.freeClk
  commits : s'.commits = s.commits
  freed : s'.freed = s.freed
  clks : ∀ t, (s'.clks t).qp0 = (s.clks t).qp0 ∧ (s'.clks t).qp2 = (s.clks t).qp2 ∧
    (s'.clks t).lastCkpt = (s.clks t).lastCkpt

theorem Quiet.refl (s : State α β) : Quiet s s :=
  ⟨rfl, rfl, rfl, rfl, rfl, rfl, rfl, rfl, rfl, rfl, rfl, rfl, rfl, rfl, rfl, rfl, rfl, rfl, rfl,
    rfl, rfl, rfl, rfl, fun _ => ⟨rfl, rfl, rfl⟩⟩

theorem quiet_markTombstone (h : Quiet s s') (wrt k : ℕ) : Quiet s (s'.markTombstone t wrt k) := by
  unfold State.markTombstone
  dsimp only
  split
  · exact h
  · split
    · exact { h with }
    · exact { h with }

theorem quiet_noteMinCkpt (h : Quiet s s') : Quiet s (s'.noteMinCkpt t) := by
  unfold State.noteMinCkpt
  split
  · exact h
  · refine { h with clks := fun t' => ?_ }
    show (Function.update s'.clks t _ t').qp0 = _ ∧ (Function.update s'.clks t _ t').qp2 = _ ∧
      (Function.update s'.clks t _ t').lastCkpt = _
    by_cases he : t' = t
    · subst he
      rw [Function.update_self]
      exact h.clks t'
    · rw [Function.update_of_ne he]
      exact h.clks t'

theorem quiet_tvlogReclaim (s : State α β) (t : ℕ) : Quiet s (s.tvlogReclaim B t) := by
  refine tvlogReclaim_rule (P := Quiet s) ?_ ?_ ?_ ?_ ?_ ?_ (Quiet.refl s)
  · exact fun s' w _ k h _ _ _ => quiet_markTombstone h w.wrtClk k
  · exact fun s' _ _ h _ => { h with }
  · exact fun s' h => { h with }
  · exact fun s' _ _ _ h _ _ _ _ => { h with }
  · exact fun s' _ _ h _ _ _ => { h with }
  · exact fun s' h _ => { h with }

theorem quiet_ckptlogReclaim (s : State α β) (t wb : ℕ) : Quiet s (s.ckptlogReclaim B t wb) := by
  refine ckptlogReclaim_rule (P := Quiet s) (fun budget => ?_) (Quiet.refl s)
  refine ckptlogReclaimX_rule (P := Quiet s) ?_ ?_ ?_ ?_ ?_ (Quiet.refl s)
  · exact fun s' _ _ h _ => { h with }
  · exact fun s' h _ => quiet_noteMinCkpt h
  · exact fun s' _ _ h _ _ _ _ => { h with }
  · exact fun s' _ _ h _ _ _ => { h with }
  · exact fun s' h => { h with }

/-! ### The steps with their guards -/

/-- The step function as a relation. -/
inductive Step (B : ℕ) (s : State α β) : Op α β → State α β → Prop
  | threadInit (t : ℕ) : s.life t = .fresh → ¬ s.LiveLocked →
      Step B s (.threadInit t) (s.threadInit t)
  | begin (t v : ℕ) : s.life t = .live → ¬ s.InTx t → s.Reading B v →
      Step B s (.begin t v) (s.start t v)
  | deref (t o : ℕ) : s.InTx t → Step B s (.deref t o) (s.record t o (s.deref B t o))
  | lock (t o : ℕ) (kind : Kind) : s.InTx t → kind ≠ .free → s.MayLock B t o →
      Step B s (.lock t o kind) (s.lock t o kind)
  | write (t k : ℕ) (a : α) : s.InTx t → k ∈ s.ws t → (s.copies k).kind = .copy →
      Step B s (.write t k a) (s.write k a)
  | free (t o : ℕ) : s.InTx t → Step B s (.free t o) (s.free t o)
  | endRead (t v : ℕ) (info : β) : s.InTx t → s.ws t = [] → Step B s (.endTx t v info) (s.stop t)
  | endTx (t v : ℕ) (info : β) : s.InTx t → s.Reading B v →
      gtClock B v (s.localClk t + B) →
      Step B s (.endTx t v info) ((s.tvlogCommit t v info).stop t)
  | abort (t : ℕ) : s.InTx t → Step B s (.abort t) ((s.unlockAbort t).stop t)
  | tvlogReclaim (t : ℕ) : s.MayReclaim t → Step B s (.tvlogReclaim t) (s.tvlogReclaim B t)
  | ckptlogReclaim (t wb : ℕ) : s.MayReclaim t →
      Step B s (.ckptlogReclaim t wb) (s.ckptlogReclaim B t wb)
  | oplogReclaim (t : ℕ) : s.life t = .live → Step B s (.oplogReclaim t) (s.oplogReclaim B t)
  | finishStart (t : ℕ) : s.life t = .live → ¬ s.InTx t → s.req t = .none →
      Step B s (.finishStart t) { s with life := Function.update s.life t .finishing }
  | finishOplog (t : ℕ) : s.life t = .finishing →
      Step B s (.finishOplog t) { s.oplogReclaim B t with
        life := Function.update s.life t .flushed }
  | deregister (t : ℕ) : s.life t = .flushed → ¬ s.LiveLocked →
      Step B s (.deregister t) (s.deregister t)
  | zombinize (t : ℕ) : s.life t = .limbo → ¬ s.ZombieLocked →
      Step B s (.zombinize t) (s.zombinize B t)
  | threadFree (t : ℕ) : s.life t = .zombie ∨ s.life t = .gone →
      Step B s (.threadFree t) (s.threadFree B t)
  | request (r : Reclaim) : Step B s (.request r) (s.raise r)
  | detect (v : ℕ) : s.phase = .idle → s.Reading B v →
      ltClock B s.qpClks.qp0 (correctQpClock B v) → Step B s (.detect v) (s.qpInit v)
  | cleanup (t clk : ℕ) : s.phase = .waiting clk → s.InLive t →
      Step B s (.cleanup t)
        (s.ckptlogCleanup B t (correctQpClock B s.qpClks.minCkptReclaimed))
  | detected (clk : ℕ) : s.phase = .waiting clk → s.Quiescent B clk →
      Step B s .detected (s.advanceQpClock B clk)
  | skip : s.phase = .detected → Step B s .skip { s with phase := .idle }
  | startTrigger : s.phase = .detected →
      Step B s .startTrigger { s with phase := .trigger s.qpReq [], qpReq := .none }
  | trigger (t : ℕ) (r : Reclaim) (done : List ℕ) : s.phase = .trigger r done → s.InLive t →
      t ∉ done → Step B s (.trigger t)
        { s.sendRequest t r with phase := .trigger r (t :: done) }
  | endTrigger (r : Reclaim) (done : List ℕ) : s.phase = .trigger r done →
      (∀ t ∈ s.tids, s.InLive t → t ∈ done) →
      Step B s .endTrigger { s with phase := .reapStart r }
  | reapLock (r : Reclaim) : s.phase = .reapStart r →
      Step B s .reapLock { s with phase := .reap r [] }
  | reap (t : ℕ) (r : Reclaim) (done : List ℕ) : s.phase = .reap r done → s.life t = .zombie →
      t ∉ done → Step B s (.reap t) { s.reapThread B t with phase := .reap r (t :: done) }
  | reapRetry (r : Reclaim) (done : List ℕ) : s.phase = .reap r done →
      Step B s .reapRetry { s with phase := .reapStart r }
  | endReap (r : Reclaim) (done : List ℕ) : s.phase = .reap r done →
      (∀ t ∈ s.tids, s.life t = .zombie → t ∈ done) →
      Step B s .endReap { s with phase := .help r }
  | startBarrier (r : Reclaim) : s.phase = .help r → s.AllServed →
      Step B s .startBarrier { s with
        phase := .barrier r
        qpClks := { s.qpClks with minCkptReclaimed := s.minCkptReclaimed } }
  | publish (r : Reclaim) : s.phase = .barrier r → Step B s .publish (s.publish r)

theorem Step.of_step {op : Op α β} (hs : step B s op = some s') : Step B s op s' := by
  cases op <;> simp only [step] at hs
  case endTx t v info =>
    split at hs
    · rename_i ht
      split at hs
      · rename_i hws
        cases hs
        exact .endRead t v info ht hws
      · split at hs <;> cases hs
        rename_i hv
        exact .endTx t v info ht hv.1 hv.2
    · cases hs
  case request r =>
    cases hs
    exact .request r
  case cleanup t =>
    split at hs
    · rename_i clk hp
      split at hs <;> cases hs
      rename_i hc
      exact .cleanup t clk hp hc.2
    · cases hs
  case detected =>
    split at hs
    · rename_i clk hp
      split at hs <;> cases hs
      rename_i hq
      exact .detected clk hp hq
    · cases hs
  case trigger t =>
    split at hs
    · rename_i r done hp
      split at hs <;> cases hs
      rename_i hc
      exact .trigger t r done hp hc.1 hc.2
    · cases hs
  case endTrigger =>
    split at hs
    · rename_i r done hp
      split at hs <;> cases hs
      rename_i hc
      exact .endTrigger r done hp hc
    · cases hs
  case reapLock =>
    split at hs <;> cases hs
    rename_i r hp
    exact .reapLock r hp
  case reap t =>
    split at hs
    · rename_i r done hp
      split at hs <;> cases hs
      rename_i hc
      exact .reap t r done hp hc.1 hc.2
    · cases hs
  case reapRetry =>
    split at hs <;> cases hs
    rename_i r done hp
    exact .reapRetry r done hp
  case endReap =>
    split at hs
    · rename_i r done hp
      split at hs <;> cases hs
      rename_i hc
      exact .endReap r done hp hc
    · cases hs
  case startBarrier =>
    split at hs
    · rename_i r hp
      split at hs <;> cases hs
      rename_i hc
      exact .startBarrier r hp hc
    · cases hs
  case publish =>
    split at hs <;> cases hs
    rename_i r hp
    exact .publish r hp
  -- the other steps have one guard
  all_goals
    split at hs <;> cases hs
    rename_i hc
    constructor
    all_goals first
      | exact hc
      | exact hc.1
      | exact hc.2
      | exact hc.2.1
      | exact hc.2.2

end TimeStone.System
