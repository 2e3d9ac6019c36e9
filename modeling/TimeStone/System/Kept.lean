/-
Log space that a running transaction still knows.

A round of the QP thread gives back the copies between `head_cnt` and `prev_head_cnt`,
which an earlier round has passed.  A transaction that has read such a copy as the newest one
of its object has done so before that round, so it began before the QP thread has read the
clock of this one, and the QP thread waits for it, unless it began within the ordo boundary
of that clock.

* `KeptCopy` — what holds of the newest copy that a transaction has read: it is in its log, not
  in a part that this round will give back, and no other copy of the log is at its address;
* `KeptCopy.step` — this holds while the transaction runs, when the QP thread waits for it.
-/
import TimeStone.System.Places

namespace TimeStone.System

variable {α β : Type*} {B t u k j : ℕ} {s s' : State α β} {p p' : Places}

/-- The log of `u` will be reclaimed in this round. -/
def State.ToReclaim (s : State α β) (u : ℕ) : Prop :=
  match s.phase with
  | .idle | .waiting _ | .barrier _ => False
  | .detected => True
  | .trigger _ done => u ∉ done ∨ (s.req u).tvlog ≠ .none
  | .reapStart _ | .reap _ _ | .help _ => (s.req u).tvlog ≠ .none

/-- The QP thread waits for the transaction of `t`, if it waits at all. -/
def State.WaitsFor (s : State α β) (B t : ℕ) : Prop :=
  ∀ clk, s.phase = .waiting clk →
    s.needWait t = true ∧ s.qpRunCnt t = s.runCnt t ∧ ¬ gteClock B (s.localClk t) clk

/-- While requests are sent only the threads that got one have it. -/
def Triggered (s : State α β) : Prop :=
  ∀ r done, s.phase = .trigger r done → ∀ u, s.InLive u → (s.req u).tvlog ≠ .none → u ∈ done

/-- A copy that the transaction of `t` has read as the newest one of its object.  Once its
thread has finished, the log may be given back, but nothing is put there any more. -/
structure KeptCopy (B : ℕ) (s : State α β) (p : Places) (t k : ℕ) : Prop where
  known : s.life (p.log k) ≠ .fresh
  own : ∀ j ∈ s.inLog (p.log k), p.addr j = p.addr k → j = k
  live : s.InLive (p.log k) → k ∈ s.logged (p.log k)
  old : s.InLive (p.log k) → ∀ w ∈ s.tvOld (p.log k), k ∈ w.copies →
    ¬ s.ToReclaim (p.log k) ∧ s.WaitsFor B t

/-! ### Requests -/

theorem toReclaim_congr (hp : s'.phase = s.phase) (hr : (s'.req u).tvlog = (s.req u).tvlog) :
    s'.ToReclaim u ↔ s.ToReclaim u := by
  rw [State.ToReclaim, State.ToReclaim, hp, hr]

/-- A pending request is one of this round. -/
theorem toReclaim_of_req (h : ReqInv s) (hl : s.InLive u) (hr : (s.req u).tvlog ≠ .none) :
    s.ToReclaim u := by
  have hreq : s.req u ≠ .none := by
    intro hn
    rw [hn] at hr
    exact hr rfl
  obtain ⟨-, r, hphase, -⟩ := h u hl hreq
  rw [State.ToReclaim]
  cases hp : s.phase with
  | trigger r done => exact Or.inr hr
  | reapStart r => exact hr
  | reap r done => exact hr
  | help r => exact hr
  | _ =>
    rw [hp] at hphase
    cases hphase

/-- A step in which no thread is sent a request or enters the live list. -/
theorem Triggered.congr (h : Triggered s) (hp : s'.phase = s.phase)
    (hl : ∀ u, s'.InLive u → s.InLive u)
    (hr : ∀ u, (s'.req u).tvlog ≠ .none → (s.req u).tvlog ≠ .none) : Triggered s' := by
  intro r done hphase u hlive hreq
  rw [hp] at hphase
  exact h r done hphase u (hl u hlive) (hr u hreq)

theorem tvlog_req_tvlogReclaim (s : State α β) (B t u : ℕ) :
    ((s.tvlogReclaim B t).req u).tvlog = if u = t then .none else (s.req u).tvlog := by
  rw [req_tvlogReclaim, Function.update_apply]
  split <;> rfl

theorem tvlog_req_ckptlogReclaim (s : State α β) (B t wb u : ℕ) :
    ((s.ckptlogReclaim B t wb).req u).tvlog = (s.req u).tvlog := by
  rw [req_ckptlogReclaim, Function.update_apply]
  split
  · rename_i he
    rw [he]
  · rfl

theorem req_tvlogCommit (s : State α β) (t W : ℕ) (info : β) :
    (s.tvlogCommit t W info).req = s.req := by
  refine foldl_commitCopy_rule (P := fun s₁ => s₁.req = s.req) (fun s₁ k h₁ _ => ?_) rfl
  unfold State.commitCopy
  split
  · exact h₁
  · split <;> exact h₁

theorem inLive_of_eq (h : s'.life = s.life) (hl : s'.InLive u) : s.InLive u := by
  rw [State.InLive, h] at hl
  exact hl

theorem triggered_step {op : Op α β} (h : Triggered s) (hi : Inv B s)
    (hs : step B s op = some s') : Triggered s' := by
  cases Step.of_step hs with
  | threadInit t _ hlock =>
    exact fun r done hp => absurd hp (not_trigger_of_unlocked hlock r done)
  | endTx t v info =>
    have hsame := sameThreads_tvlogCommit s t v info
    refine h.congr hsame.phase (fun u => inLive_of_eq hsame.life) fun u hr => ?_
    change ((s.tvlogCommit t v info).req u).tvlog ≠ _ at hr
    rw [req_tvlogCommit] at hr
    exact hr
  | tvlogReclaim t =>
    have hq := quiet_tvlogReclaim (B := B) s t
    refine h.congr hq.phase (fun u => inLive_of_eq hq.life) fun u hr => ?_
    rw [tvlog_req_tvlogReclaim] at hr
    split at hr
    · exact absurd rfl hr
    · exact hr
  | ckptlogReclaim t wb =>
    have hq := quiet_ckptlogReclaim (B := B) s t wb
    refine h.congr hq.phase (fun u => inLive_of_eq hq.life) fun u hr => ?_
    rw [tvlog_req_ckptlogReclaim] at hr
    exact hr
  | finishStart t hl =>
    exact h.congr rfl (fun u => inLive_of_update (Or.inl (Or.inl hl))) fun _ => id
  | finishOplog t hl =>
    exact h.congr rfl (fun u => inLive_of_update (s := s.oplogReclaim B t)
      (Or.inl (Or.inr (Or.inl hl)))) fun _ => id
  | deregister t => exact h.congr rfl (fun u => inLive_of_update (Or.inr (by simp))) fun _ => id
  | zombinize t =>
    unfold State.zombinize
    split
    · exact h.congr rfl (fun u => inLive_of_update (s := s.destroyLogs B t) (Or.inr (by simp)))
        fun _ => id
    · exact h.congr rfl (fun u => inLive_of_update (Or.inr (by simp))) fun _ => id
  | threadFree t =>
    unfold State.threadFree
    dsimp only
    split
    · exact h.congr rfl (fun _ => id) fun _ => id
    · exact h.congr rfl (fun _ => id) fun _ => id
  | startTrigger hp =>
    -- the round before has been served
    intro r done _ u hl hr
    have hreq := hi.req.idle (by rw [hp]; rfl) hl
    change (s.req u).tvlog ≠ _ at hr
    rw [hreq] at hr
    exact absurd rfl hr
  | trigger t r done hp =>
    intro r' done' hp' u hl hr
    obtain ⟨-, rfl⟩ := Phase.trigger.inj hp'
    by_cases he : u = t
    · exact he ▸ List.mem_cons_self
    · change (Function.update s.req t r u).tvlog ≠ _ at hr
      rw [Function.update_of_ne he] at hr
      exact List.mem_cons_of_mem _ (h r done hp u hl hr)
  | begin | deref | lock | write | free | endRead | abort | oplogReclaim | request | cleanup =>
    exact h.congr rfl (fun _ => id) fun _ => id
  | _ => exact fun r done hp => (by cases hp)

/-! ### Reclamation -/

/-- The logs of the other threads stay, and so do the write sets behind `prev_head_cnt`. -/
theorem tvlogReclaim_keeps (s : State α β) (B t : ℕ) :
    (∀ u ≠ t, (s.tvlogReclaim B t).tvOld u = s.tvOld u) ∧
      ∀ w ∈ s.tvNew t, w ∈ (s.tvlogReclaim B t).tvOld t ++ (s.tvlogReclaim B t).tvNew t := by
  refine tvlogReclaim_phases
    (P := fun s₁ => (∀ u ≠ t, s₁.tvOld u = s.tvOld u) ∧ s₁.tvNew t = s.tvNew t)
    (Q := fun s₁ => (∀ u ≠ t, s₁.tvOld u = s.tvOld u) ∧
      ∀ w ∈ s.tvNew t, w ∈ s₁.tvOld t ++ s₁.tvNew t)
    (R := fun s₁ => (∀ u ≠ t, s₁.tvOld u = s.tvOld u) ∧
      ∀ w ∈ s.tvNew t, w ∈ s₁.tvOld t ++ s₁.tvNew t) ?_ ?_ ?_ ?_ ?_ ?_ ?_ ⟨fun _ _ => rfl, rfl⟩
  · rintro s₁ w rest k ⟨h1, h2⟩ - - -
    rw [tvOld_markTombstone, tvNew_markTombstone]
    exact ⟨h1, h2⟩
  · rintro s₁ w rest ⟨h1, h2⟩ -
    exact ⟨fun u hu => (Function.update_of_ne hu _ _).trans (h1 u hu), h2⟩
  · rintro s₁ ⟨h1, h2⟩
    refine ⟨fun u hu => (Function.update_of_ne hu _ _).trans (h1 u hu), fun w hw => ?_⟩
    show w ∈ Function.update s₁.tvOld t _ t ++ Function.update s₁.tvNew t _ t
    rw [Function.update_self, Function.update_self, h2]
    exact List.mem_append_right _ (List.mem_append_right _ hw)
  · exact fun s₁ w rest k _ h₁ _ _ _ _ => h₁
  · rintro s₁ w rest ⟨h1, h2⟩ hw - -
    refine ⟨fun u hu => (Function.update_of_ne hu _ _).trans (h1 u hu), fun w' hw' => ?_⟩
    have hmem := h2 w' hw'
    show w' ∈ Function.update s₁.tvOld t _ t ++ Function.update s₁.tvNew t _ t
    rw [Function.update_self, Function.update_self, List.append_assoc, List.singleton_append, ← hw]
    exact hmem
  · exact fun s₁ h₁ _ => h₁
  · exact fun _ => ⟨fun _ _ => rfl, fun w hw => List.mem_append_right _ hw⟩

/-- Reaping a zombie leaves the logs of the other threads alone. -/
theorem reapThread_keeps (s : State α β) (B t : ℕ) : ∀ u ≠ t,
    (s.reapThread B t).tvOld u = s.tvOld u ∧ (s.reapThread B t).tvNew u = s.tvNew u := by
  have hlogs : ∀ u ≠ t, (s.reapLogs B t).tvOld u = s.tvOld u ∧
      (s.reapLogs B t).tvNew u = s.tvNew u := by
    refine reapLogs_rule
      (P := fun s₁ => ∀ u ≠ t, s₁.tvOld u = s.tvOld u ∧ s₁.tvNew u = s.tvNew u)
      (fun _ _ => ⟨rfl, rfl⟩) (fun _ _ h₁ => h₁) (fun s₁ h₁ _ u hu => ?_) fun s₁ h₁ u hu => ?_
    · rw [(tvlogReclaim_keeps s₁ B t).1 u hu, (tvlogReclaim_sets s₁ B t).2.1 u hu]
      exact h₁ u hu
    · obtain ⟨h2, h3⟩ := ckptlogReclaim_sets s₁ B t 0
      rw [h2, h3]
      exact h₁ u hu
  exact reapThread_rule
    (P := fun s₁ => ∀ u ≠ t, s₁.tvOld u = s.tvOld u ∧ s₁.tvNew u = s.tvNew u)
    hlogs (fun _ => hlogs) fun _ => hlogs

/-! ### What a transaction has read -/

/-- What a step leaves alone that neither moves a log nor the QP thread. -/
structure SameLogs (s s' : State α β) : Prop where
  tvOld : s'.tvOld = s.tvOld := by rfl
  tvNew : s'.tvNew = s.tvNew := by rfl
  ws : ∀ u, ∀ j ∈ s'.ws u, j ∈ s.ws u := by exact fun _ _ => id
  life : s'.life = s.life := by rfl
  phase : s'.phase = s.phase := by rfl
  req : ∀ u, (s'.req u).tvlog = (s.req u).tvlog := by exact fun _ => rfl
  needWait : s'.needWait = s.needWait := by rfl
  qpRunCnt : s'.qpRunCnt = s.qpRunCnt := by rfl
  localClk : s'.localClk = s.localClk := by rfl

theorem SameLogs.logged (h : SameLogs s s') (u : ℕ) : s'.logged u = s.logged u := by
  rw [State.logged, State.logged, h.tvOld, h.tvNew]

theorem SameLogs.inLog (h : SameLogs s s') (hj : j ∈ s'.inLog u) : j ∈ s.inLog u := by
  rw [State.inLog, h.logged] at hj
  exact List.mem_append.mpr ((List.mem_append.mp hj).imp_right (h.ws u j))

/-- The transaction goes on, and the QP thread waits for it as before. -/
theorem State.WaitsFor.congr (h : s.WaitsFor B t) (hp : s'.phase = s.phase)
    (hn : s'.needWait t = s.needWait t) (hq : s'.qpRunCnt t = s.qpRunCnt t)
    (hr : s'.runCnt t = s.runCnt t) (hl : s'.localClk t = s.localClk t) : s'.WaitsFor B t := by
  intro clk hclk
  rw [hp] at hclk
  rw [hn, hq, hr, hl]
  exact h clk hclk

/-- The tail of the log does not matter. -/
theorem KeptCopy.places (h : KeptCopy B s p t k) (hlog : p'.log = p.log)
    (haddr : p'.addr = p.addr) : KeptCopy B s p' t k := by
  obtain ⟨h1, h2, h3, h4⟩ := h
  refine ⟨?_, ?_, ?_, ?_⟩ <;> rw [hlog]
  · exact h1
  · rw [haddr]
    exact h2
  · exact h3
  · exact h4

theorem KeptCopy.frame (h : KeptCopy B s p t k) (hknown : s'.life (p.log k) ≠ .fresh)
    (hin : ∀ j ∈ s'.inLog (p.log k), j ∈ s.inLog (p.log k))
    (hlive : s'.InLive (p.log k) → s.InLive (p.log k) ∧
      (∀ j ∈ s.logged (p.log k), j ∈ s'.logged (p.log k)) ∧
      (∀ w ∈ s'.tvOld (p.log k), w ∈ s.tvOld (p.log k)) ∧
      (s'.ToReclaim (p.log k) → s.ToReclaim (p.log k)))
    (hw : s.WaitsFor B t → s'.WaitsFor B t) : KeptCopy B s' p t k where
  known := hknown
  own := fun j hj => h.own j (hin j hj)
  live := fun hl => (hlive hl).2.1 k (h.live (hlive hl).1)
  old := by
    intro hl w hmem hk
    obtain ⟨h1, -, h3, h4⟩ := hlive hl
    exact (h.old h1 w (h3 w hmem) hk).imp (mt h4) hw

theorem KeptCopy.congr (h : KeptCopy B s p t k) (he : SameLogs s s')
    (hr : s'.runCnt t = s.runCnt t) : KeptCopy B s' p t k := by
  refine h.frame (he.life ▸ h.known) (fun j => he.inLog) (fun hl => ?_) fun hw =>
    hw.congr he.phase (congrFun he.needWait t) (congrFun he.qpRunCnt t) hr (congrFun he.localClk t)
  exact ⟨inLive_of_eq he.life hl, fun _ hj => he.logged _ ▸ hj, fun _ hw => he.tvOld ▸ hw,
    (toReclaim_congr he.phase (he.req _)).mp⟩

/-- A step of the QP thread that moves no log. -/
theorem KeptCopy.qp (h : KeptCopy B s p t k) (hold : s'.tvOld = s.tvOld) (hnew : s'.tvNew = s.tvNew)
    (hws : s'.ws = s.ws) (hlife : s'.life = s.life)
    (hto : s.InLive (p.log k) → s'.ToReclaim (p.log k) → s.ToReclaim (p.log k))
    (hw : ∀ clk, s'.phase ≠ .waiting clk) : KeptCopy B s' p t k := by
  have hlogged : s'.logged (p.log k) = s.logged (p.log k) := by
    rw [State.logged, State.logged, hold, hnew]
  refine h.frame (hlife ▸ h.known) (fun j hj => ?_) (fun hl => ?_) fun _ clk hclk =>
    absurd hclk (hw clk)
  · rw [State.inLog, hlogged, hws] at hj
    exact hj
  · have hl := inLive_of_eq hlife hl
    exact ⟨hl, fun _ hj => hlogged ▸ hj, fun _ hw => hold ▸ hw, hto hl⟩

/-- A thread moves on in its life. -/
theorem KeptCopy.life {l : Life} (h : KeptCopy B s p t k) (hnew : l ≠ .fresh)
    (hl : s.InLive u ∨ ¬ (l = .live ∨ l = .finishing ∨ l = .flushed)) :
    KeptCopy B { s with life := Function.update s.life u l } p t k := by
  refine h.frame ?_ (fun _ => id) (fun hlive => ?_) id
  · show Function.update s.life u l (p.log k) ≠ _
    rw [Function.update_apply]
    split
    · exact hnew
    · exact h.known
  · exact ⟨inLive_of_update hl hlive, fun _ => id, fun _ => id, id⟩

/-- The log of a live thread is reclaimed: what the transaction has read is not in the part
that is given back. -/
theorem KeptCopy.tvlogReclaim (h : KeptCopy B s p t k) (hi : Inv B s) (ht : Triggered s)
    (hm : s.MayReclaim u) : KeptCopy B (s.tvlogReclaim B u) p t k := by
  have hq := quiet_tvlogReclaim (B := B) s u
  obtain ⟨hother, hkeep⟩ := tvlogReclaim_keeps s B u
  obtain ⟨hsub, hnew, -⟩ := tvlogReclaim_sets s B u
  by_cases hr : (s.req u).tvlog = .none
  · have hsame : s.tvlogReclaim B u = s := by
      rw [State.tvlogReclaim, hr]
    rw [hsame]
    exact h
  have hto := toReclaim_of_req hi.req hm.inLive hr
  have hreq := tvlog_req_tvlogReclaim s B u
  have hwait : s.WaitsFor B t → (s.tvlogReclaim B u).WaitsFor B t := fun hw =>
    hw.congr hq.phase (congrFun hq.needWait t) (congrFun hq.qpRunCnt t) (congrFun hq.runCnt t)
      (congrFun hq.localClk t)
  have hin : ∀ j ∈ (s.tvlogReclaim B u).inLog (p.log k), j ∈ s.inLog (p.log k) := by
    intro j hj
    rw [State.inLog, hq.ws] at hj
    exact List.mem_append.mpr ((List.mem_append.mp hj).imp_left fun hj =>
      (hsub.logged _).subset hj)
  by_cases he : p.log k = u
  · subst he
    have hl := hm.inLive
    obtain ⟨w, hw, hkw⟩ := mem_logged.mp (h.live hl)
    refine ⟨hq.life ▸ h.known, fun j hj => h.own j (hin j hj), fun _ => ?_, fun _ _ _ _ => ?_⟩
    · rcases List.mem_append.mp hw with hw | hw
      · exact absurd hto (h.old hl w hw hkw).1
      · exact mem_logged.mpr ⟨w, hkeep w hw, hkw⟩
    · -- now the log is reclaimed, and no log is reclaimed while the QP thread waits
      refine ⟨fun hto' => ?_, fun clk hclk => ?_⟩
      · rw [State.ToReclaim, hq.phase, hreq, if_pos rfl] at hto'
        rw [State.ToReclaim] at hto
        have hactive := hi.req _ hl fun hn => hr (by rw [hn]; rfl)
        obtain ⟨-, r, hphase, -⟩ := hactive
        cases hp : s.phase with
        | trigger r done =>
          rw [hp] at hto'
          exact hto'.elim (fun hn => hn (ht r done hp _ hl hr)) fun hn => hn rfl
        | reapStart r =>
          rw [hp] at hto'
          exact hto' rfl
        | reap r done =>
          rw [hp] at hto'
          exact hto' rfl
        | help r =>
          rw [hp] at hto'
          exact hto' rfl
        | _ =>
          rw [hp] at hphase
          cases hphase
      · rw [hq.phase] at hclk
        rw [State.ToReclaim, hclk] at hto
        exact hto.elim
  · refine h.frame (hq.life ▸ h.known) hin (fun hl => ?_) hwait
    have hlogged : (s.tvlogReclaim B u).logged (p.log k) = s.logged (p.log k) := by
      rw [State.logged, State.logged, hother _ he, hnew _ he]
    refine ⟨inLive_of_eq hq.life hl, fun _ hj => hlogged ▸ hj, fun _ hw => hother _ he ▸ hw,
      (toReclaim_congr hq.phase ?_).mp⟩
    rw [hreq, if_neg he]

/-- A zombie is reaped. -/
theorem KeptCopy.reap {r : Reclaim} {done : List ℕ} (h : KeptCopy B s p t k)
    (hz : s.life u = .zombie) (hp : s.phase = .reap r done) (hsort : (s.tvOld u ++ s.tvNew u).Pairwise
      fun w w' => w.wrtClk ≤ w'.wrtClk) :
    KeptCopy B { s.reapThread B u with phase := .reap r (u :: done) } p t k := by
  have hf := reapThread_frame s B u
  have hws := ws_reapThread s B u
  have hlife : (s.reapThread B u).life u = .zombie ∨ (s.reapThread B u).life u = .gone :=
    hf.self.imp_left fun he => he.trans hz
  refine h.frame ?_ (fun j hj => ?_) (fun hl => ?_) fun _ clk hclk => by cases hclk
  · show (s.reapThread B u).life (p.log k) ≠ _
    by_cases he : p.log k = u
    · rcases hlife with hl | hl <;> rw [he, hl] <;> simp
    · rw [hf.life _ he]
      exact h.known
  · change j ∈ (s.reapThread B u).logged _ ++ (s.reapThread B u).ws _ at hj
    rw [hws] at hj
    exact List.mem_append.mpr ((List.mem_append.mp hj).imp_left fun hj =>
      ((reapThread_sets s B u hsort).1.logged _).subset hj)
  · -- a live thread is another one
    have he : p.log k ≠ u := by
      intro he
      change (s.reapThread B u).life (p.log k) = _ ∨ (s.reapThread B u).life (p.log k) = _ ∨
        (s.reapThread B u).life (p.log k) = _ at hl
      rw [he] at hl
      rcases hlife with hl' | hl' <;> rw [hl'] at hl <;> simp at hl
    obtain ⟨h1, h2⟩ := reapThread_keeps s B u _ he
    have hl : s.InLive (p.log k) := by
      change (s.reapThread B u).life (p.log k) = _ ∨ (s.reapThread B u).life (p.log k) = _ ∨
        (s.reapThread B u).life (p.log k) = _ at hl
      rw [hf.life _ he] at hl
      exact hl
    have hlogged : (s.reapThread B u).logged (p.log k) = s.logged (p.log k) := by
      rw [State.logged, State.logged, h1, h2]
    refine ⟨hl, fun _ hj => hlogged ▸ hj, fun w hw => h1 ▸ hw, fun hto => ?_⟩
    change ((s.reapThread B u).req (p.log k)).tvlog ≠ _ at hto
    rw [State.ToReclaim, hp, ← hf.req _ he]
    exact hto

theorem KeptCopy.step {op : Op α β} (h : KeptCopy B s p t k) (hi : Inv B s) (hsets : Sets B s)
    (ht : Triggered s) (hin : s'.InTx t) (hop : op.Plain)
    (hw : ∀ v, op = .detect v → ¬ gteClock B (s.localClk t) v) (hs : step B s op = some s') :
    KeptCopy B s' p t k := by
  have htx := (frame_step hop hs).tx t hin
  cases Step.of_step hs with
  | begin => exact hop.elim
  | lock => exact hop.elim
  | free => exact hop.elim
  | endRead => exact hop.elim
  | endTx => exact hop.elim
  | threadInit u hf =>
    have hne : p.log k ≠ u := fun he => h.known (he ▸ hf)
    have hreq : ((s.threadInit u).req (p.log k)).tvlog = (s.req (p.log k)).tvlog := by
      show (Function.update s.req u _ (p.log k)).tvlog = _
      rw [Function.update_of_ne hne]
    have hphase : (s.threadInit u).phase = s.phase := rfl
    refine h.frame ?_ (fun _ => id) (fun hl => ?_) fun hw => hw.congr rfl rfl rfl rfl rfl
    · show Function.update s.life u _ (p.log k) ≠ _
      rw [Function.update_of_ne hne]
      exact h.known
    · exact ⟨inLive_of_threadInit hne hl, fun _ => id, fun _ => id,
        (toReclaim_congr hphase hreq).mp⟩
  | abort u hu =>
    refine h.congr { ws := fun v j hj => ?_ } (inTx_stop (s := s.unlockAbort u) hu hin).2
    change j ∈ Function.update s.ws u [] v at hj
    by_cases he : v = u
    · rw [he, Function.update_self] at hj
      cases hj
    · rw [Function.update_of_ne he] at hj
      exact hj
  | tvlogReclaim u hm => exact h.tvlogReclaim hi ht hm
  | ckptlogReclaim u wb =>
    have hq := quiet_ckptlogReclaim (B := B) s u wb
    obtain ⟨h1, h2⟩ := ckptlogReclaim_sets s B u wb
    exact h.congr ⟨h1, h2, fun _ _ => hq.ws ▸ id, hq.life, hq.phase,
      tvlog_req_ckptlogReclaim s B u wb, hq.needWait, hq.qpRunCnt, hq.localClk⟩
      (congrFun hq.runCnt t)
  | finishStart u hl => exact h.life (by simp) (Or.inl (Or.inl hl))
  | finishOplog u hl =>
    have ho : KeptCopy B (s.oplogReclaim B u) p t k := h.congr {} rfl
    exact ho.life (by simp) (Or.inl (Or.inr (Or.inl hl)))
  | deregister u =>
    -- the transaction is of another thread, which is waited for as before
    rename_i hfl _
    have hne : t ≠ u := by
      rintro rfl
      rw [hi.tx.live t htx.1] at hfl
      cases hfl
    have hd : KeptCopy B { s with needWait := Function.update s.needWait u false } p t k :=
      h.frame h.known (fun _ => id) (fun hl => ⟨hl, fun _ => id, fun _ => id, id⟩) fun hw =>
        hw.congr rfl (Function.update_of_ne hne _ _) rfl rfl rfl
    exact hd.life (by simp) (Or.inr (by simp))
  | zombinize u =>
    unfold State.zombinize
    split
    · have hd : KeptCopy B (s.destroyLogs B u) p t k := h.congr {} rfl
      exact hd.life (by simp) (Or.inr (by simp))
    · exact h.life (by simp) (Or.inr (by simp))
  | threadFree u =>
    unfold State.threadFree
    dsimp only
    split
    · exact h.congr {} rfl
    · exact h.congr {} rfl
  | detect v hp =>
    -- the transaction runs, and began early enough to be waited for
    refine h.frame h.known (fun _ => id) (fun hl => ⟨hl, fun _ => id, fun _ => id, False.elim⟩)
      fun _ clk hclk => ?_
    obtain rfl := Phase.waiting.inj hclk
    have hl : s.InLive t := Or.inl (hi.tx.live t htx.1)
    refine ⟨?_, ?_, hw v rfl⟩
    · show (if s.InLive t then decide (s.InTx t) else s.needWait t) = true
      rw [if_pos hl, decide_eq_true_eq]
      exact htx.1
    · show (if s.InLive t then s.runCnt t else s.qpRunCnt t) = s.runCnt t
      rw [if_pos hl]
  | detected clk hp hq =>
    -- the QP thread has waited for every transaction that knows an old copy
    have hl := hi.tx.live t htx.1
    refine ⟨h.known, h.own, h.live, fun hlive w hw hk => ?_⟩
    obtain ⟨h1, h2, h3⟩ := (h.old hlive w hw hk).2 clk hp
    rcases hq t (hi.tx.reg t (by rw [hl]; simp)) (Or.inl hl) h1 with hne | hge
    · exact absurd h2 hne
    · exact absurd hge h3
  | startTrigger hp =>
    exact h.qp rfl rfl rfl rfl (fun _ _ => by rw [State.ToReclaim, hp]; trivial) fun _ => by simp
  | trigger u r done hp =>
    refine h.qp rfl rfl rfl rfl (fun _ hto => ?_) fun _ => by simp
    change p.log k ∉ u :: done ∨ (Function.update s.req u r (p.log k)).tvlog ≠ .none at hto
    rw [State.ToReclaim, hp]
    by_cases he : p.log k = u
    · left
      rw [he]
      assumption
    · rw [Function.update_of_ne he] at hto
      exact hto.imp_left fun hn hmem => hn (List.mem_cons_of_mem _ hmem)
  | endTrigger r done hp =>
    refine h.qp rfl rfl rfl rfl (fun _ hto => ?_) fun _ => by simp
    rw [State.ToReclaim, hp]
    exact Or.inr hto
  | reap u r done hp hz => exact h.reap hz hp (hsets.sorted u)
  | reapLock r hp =>
    refine h.qp rfl rfl rfl rfl (fun _ hto => ?_) fun _ => by simp
    rw [State.ToReclaim, hp]
    exact hto
  | reapRetry r done hp =>
    refine h.qp rfl rfl rfl rfl (fun _ hto => ?_) fun _ => by simp
    rw [State.ToReclaim, hp]
    exact hto
  | endReap r done hp =>
    refine h.qp rfl rfl rfl rfl (fun _ hto => ?_) fun _ => by simp
    rw [State.ToReclaim, hp]
    exact hto
  | skip => exact h.qp rfl rfl rfl rfl (fun _ hto => False.elim hto) fun _ => by simp
  | startBarrier => exact h.qp rfl rfl rfl rfl (fun _ hto => False.elim hto) fun _ => by simp
  | publish =>
    exact h.qp rfl rfl rfl rfl (fun _ hto => False.elim hto) fun _ => by simp [State.publish]
  | deref | write | oplogReclaim | request | cleanup => exact h.congr {} rfl

/-! ### Transactions of other threads -/

theorem KeptCopy.begin {v : ℕ} (h : KeptCopy B s p t k) (hne : t ≠ u) :
    KeptCopy B (s.start u v) p t k :=
  h.frame h.known (fun _ => id) (fun hl => ⟨hl, fun _ => id, fun _ => id, id⟩) fun hw =>
    hw.congr rfl rfl rfl (Function.update_of_ne hne _ _) (Function.update_of_ne hne _ _)

theorem KeptCopy.commit {W : ℕ} {info : β} (h : KeptCopy B s p t k) (hu : s.InTx u)
    (hin : ((s.tvlogCommit u W info).stop u).InTx t) :
    KeptCopy B ((s.tvlogCommit u W info).stop u) p t k := by
  have hsame := sameThreads_tvlogCommit s u W info
  have hrun : ((s.tvlogCommit u W info).stop u).runCnt t = s.runCnt t := by
    have htx : (s.tvlogCommit u W info).InTx u := by
      rw [State.InTx, hsame.runCnt]
      exact hu
    exact (inTx_stop htx hin).2.trans (congrFun hsame.runCnt t)
  refine h.frame (hsame.life ▸ h.known) (fun j hj => ?_) (fun hl => ?_) fun hw =>
    hw.congr hsame.phase (congrFun hsame.needWait t) (congrFun hsame.qpRunCnt t) hrun
      (congrFun hsame.localClk t)
  · change j ∈ (s.tvlogCommit u W info).inLog _ at hj
    rw [State.inLog_tvlogCommit] at hj
    exact hj
  · refine ⟨inLive_of_eq hsame.life hl, fun j hj => ?_, fun w hw => ?_, fun hto => ?_⟩
    · show j ∈ (s.tvlogCommit u W info).logged _
      rw [State.logged_tvlogCommit]
      split
      · rename_i he
        exact List.mem_append_left _ (he ▸ hj)
      · exact hj
    · change w ∈ (s.tvlogCommit u W info).tvOld _ at hw
      rw [(tvlogCommit_sets s u W info).1] at hw
      exact hw
    · have hto : (s.tvlogCommit u W info).ToReclaim (p.log k) := hto
      exact (toReclaim_congr hsame.phase (by rw [req_tvlogCommit])).mp hto

/-- A lock puts its copy somewhere else. -/
theorem KeptCopy.lock {o size : ℕ} {kind : Kind} (h : KeptCopy B s p t k) (hp : Placed s p)
    (hfit : p.Fits s u size) (hlt : ∀ u, ∀ k ∈ s.inLog u, k < s.numCopies)
    (hu : s.life u = .live) (hk : k < s.numCopies) :
    KeptCopy B (s.lock u o kind) (p.lock s u size) t k := by
  have hlog : (p.lock s u size).log k = p.log k := (places_lock_old hk.ne).1
  refine ⟨?_, ?_, ?_, ?_⟩ <;> rw [hlog]
  · exact h.known
  · intro j hj hjk
    by_cases he : p.log k = u
    · -- the copy is in the log too
      have hlive : k ∈ s.logged (p.log k) := h.live (Or.inl (he ▸ hu))
      have hk' : k ∈ (s.lock u o kind).inLog (p.log k) := List.mem_append_left _ hlive
      exact (hp.lock hfit hlt).addr_inj hj hk' hjk
    · rw [inLog_lock, if_neg he] at hj
      rw [addr_lock_old hk.ne, addr_lock_old (hlt _ j hj).ne] at hjk
      exact h.own j hj hjk
  · exact h.live
  · exact h.old

/-- What a transaction reads as the newest copy. -/
theorem KeptCopy.of_pCopy {o : ℕ} (hp : Placed s p) (hlogged : Logged s) (hsets : Sets B s)
    (hk : s.pCopy o = some k) : KeptCopy B s p t k := by
  obtain ⟨v, w, hw, hkw⟩ := hlogged.top o k hk
  have hmem : k ∈ s.logged v := mem_logged.mpr ⟨w, List.mem_append_right _ hw, hkw⟩
  have hin : k ∈ s.inLog v := List.mem_append_left _ hmem
  obtain rfl := hp.log v k hin
  refine ⟨fun hf => ?_, fun j hj hjk => hp.addr_inj hj hin hjk, fun _ => hmem,
    fun _ w' hw' hkw' => ?_⟩
  · have hempty := hsets.empty _ (Or.inl hf)
    rw [State.logged, hempty] at hmem
    cases hmem
  · -- a copy is in the log only once
    have hsort := hp.sorted (p.log k)
    rw [State.inLog, State.logged, List.flatMap_append, List.append_assoc] at hsort
    have hlt := (List.pairwise_append.mp hsort).2.2 k (List.mem_flatMap.mpr ⟨w', hw', hkw'⟩) k
      (List.mem_append_left _ (List.mem_flatMap.mpr ⟨w, hw, hkw⟩))
    exact absurd hlt.1 (lt_irrefl _)

end TimeStone.System
