/-
What holds in every state of every run.

* `TxInv` — a running transaction has a snapshot that is not older than the quiescence
  clock, because the QP thread waits for the older ones;
* `ReqInv` — a pending request comes from the current round, with its clocks;
* `Inv`, `Reachable.inv` — both, with the version chains, in every reachable state.
-/
import TimeStone.System.ChainTx

namespace TimeStone.System

variable {α β : Type*} {B t : ℕ} {s s' : State α β}

/-- The reclamation of the round, while requests may be pending. -/
def Phase.active : Phase → Option Reclaim
  | .trigger r _ => some r
  | .reapStart r => some r
  | .reap r _ => some r
  | .help r => some r
  | _ => none

/-- Transactions and quiescence. -/
structure TxInv (B : ℕ) (s : State α β) : Prop where
  live : ∀ t, s.InTx t → s.life t = .live
  reg : ∀ t, s.life t ≠ .fresh → t ∈ s.tids
  qp0 : ∀ t, s.InTx t → s.qpClks.qp0 ≤ s.localClk t
  wait : ∀ clk, s.phase = .waiting clk → ∀ t, s.InTx t →
    s.needWait t = true ∧ s.qpRunCnt t = s.runCnt t ∨ clk ≤ s.localClk t + B

/-- A pending request of a live thread. -/
def ReqInv (s : State α β) : Prop :=
  ∀ t, s.InLive t → s.req t ≠ .none → s.Synced t ∧ ∃ r, s.phase.active = some r ∧
    ((s.req t).tvlog = .none ∨ (s.req t).tvlog = r.tvlog)

/-- The invariant of every run. -/
structure Inv (B : ℕ) (s : State α β) : Prop where
  core : Core B s 0 0 []
  tx : TxInv B s
  req : ReqInv s

theorem State.MayReclaim.inLive (h : s.MayReclaim t) : s.InLive t := by
  rcases h with h | h
  · exact Or.inl h.1
  · exact h.2

theorem TxInv.mem_tids (h : TxInv B s) (hl : s.InLive t) : t ∈ s.tids := by
  refine h.reg t ?_
  rcases hl with hl | hl | hl <;> rw [hl] <;> simp

/-- Where the log of a thread is reclaimed, the thread has the clocks of the QP thread. -/
theorem Inv.synced_or_idle (h : Inv B s) (hm : s.MayReclaim t) :
    s.Synced t ∨ s.tvlogReclaim B t = s := by
  by_cases hr : s.req t = .none
  · right
    rw [State.tvlogReclaim, hr]
    rfl
  · exact Or.inl (h.req t hm.inLive hr).1

/-! ### Frames -/

/-- A state in which threads and rounds are as in `s`. -/
structure SameThreads (s s' : State α β) : Prop where
  runCnt : s'.runCnt = s.runCnt := by rfl
  life : s'.life = s.life := by rfl
  tids : s'.tids = s.tids := by rfl
  localClk : s'.localClk = s.localClk := by rfl
  needWait : s'.needWait = s.needWait := by rfl
  qpRunCnt : s'.qpRunCnt = s.qpRunCnt := by rfl
  phase : s'.phase = s.phase := by rfl
  qpClks : s'.qpClks = s.qpClks := by rfl

theorem TxInv.congr (h : TxInv B s) (he : SameThreads s s') : TxInv B s' := by
  have htx : ∀ t, s'.InTx t ↔ s.InTx t := by
    intro t
    rw [State.InTx, State.InTx, he.runCnt]
  refine ⟨fun t ht => ?_, ?_, fun t ht => ?_, fun clk hclk t ht => ?_⟩
  · rw [he.life]
    exact h.live t ((htx t).mp ht)
  · rw [he.life, he.tids]
    exact h.reg
  · rw [he.qpClks, he.localClk]
    exact h.qp0 t ((htx t).mp ht)
  · rw [he.phase] at hclk
    rw [he.needWait, he.qpRunCnt, he.runCnt, he.localClk]
    exact h.wait clk hclk t ((htx t).mp ht)

/-- A step that serves a request, or leaves the requests alone. -/
theorem ReqInv.congr (h : ReqInv s) (hlife : s'.life = s.life) (hphase : s'.phase = s.phase)
    (hqp : s'.qpClks = s.qpClks)
    (hc : ∀ t, (s'.clks t).qp0 = (s.clks t).qp0 ∧ (s'.clks t).qp2 = (s.clks t).qp2 ∧
      (s'.clks t).lastCkpt = (s.clks t).lastCkpt)
    (hr : ∀ t, s'.req t ≠ .none → s.req t ≠ .none ∧
      ((s'.req t).tvlog = .none ∨ (s'.req t).tvlog = (s.req t).tvlog)) : ReqInv s' := by
  intro t hl hreq
  have hl' : s.InLive t := by
    rw [State.InLive, hlife] at hl
    exact hl
  obtain ⟨h1, h2⟩ := hr t hreq
  obtain ⟨hs, r, hp, ht⟩ := h t hl' h1
  constructor
  · rw [State.Synced, hqp, (hc t).1, (hc t).2.1, (hc t).2.2]
    exact hs
  · refine ⟨r, ?_, ?_⟩
    · rw [hphase]
      exact hp
    · rcases h2 with h2 | h2
      · exact Or.inl h2
      · rw [h2]
        exact ht

theorem Quiet.sameThreads (h : Quiet s s') : SameThreads s s' :=
  ⟨h.runCnt, h.life, h.tids, h.localClk, h.needWait, h.qpRunCnt, h.phase, h.qpClks⟩

theorem Quiet.trans {s₁ s₂ s₃ : State α β} (h : Quiet s₁ s₂) (h' : Quiet s₂ s₃) : Quiet s₁ s₃ where
  pLock := h'.pLock.trans h.pLock
  copies := h'.copies.trans h.copies
  numCopies := h'.numCopies.trans h.numCopies
  wrtClkPrev := h'.wrtClkPrev.trans h.wrtClkPrev
  tids := h'.tids.trans h.tids
  life := h'.life.trans h.life
  runCnt := h'.runCnt.trans h.runCnt
  localClk := h'.localClk.trans h.localClk
  ws := h'.ws.trans h.ws
  txFree := h'.txFree.trans h.txFree
  qpRunCnt := h'.qpRunCnt.trans h.qpRunCnt
  needWait := h'.needWait.trans h.needWait
  oplog := h'.oplog.trans h.oplog
  destroyed := h'.destroyed.trans h.destroyed
  phase := h'.phase.trans h.phase
  qpClks := h'.qpClks.trans h.qpClks
  nvmLastCkpt := h'.nvmLastCkpt.trans h.nvmLastCkpt
  lastClk := h'.lastClk.trans h.lastClk
  round := h'.round.trans h.round
  hist := h'.hist.trans h.hist
  freeClk := h'.freeClk.trans h.freeClk
  commits := h'.commits.trans h.commits
  freed := h'.freed.trans h.freed
  clks := fun t => ⟨(h'.clks t).1.trans (h.clks t).1, (h'.clks t).2.1.trans (h.clks t).2.1,
    (h'.clks t).2.2.trans (h.clks t).2.2⟩

theorem req_markTombstone (s : State α β) (t wrt k : ℕ) :
    (s.markTombstone t wrt k).req = s.req := by
  unfold State.markTombstone
  dsimp only
  split
  · rfl
  · split <;> rfl

/-- The requests after `tvlog_reclaim`. -/
theorem req_tvlogReclaim (s : State α β) (B t : ℕ) :
    (s.tvlogReclaim B t).req = Function.update s.req t { s.req t with tvlog := .none } := by
  have hx : ∀ mode, (s.tvlogReclaimX B mode t).req =
      Function.update s.req t { s.req t with tvlog := .none } := by
    intro mode
    have h1 : (State.reclaimLoop B mode t (s.tvOld t) s).req = s.req :=
      reclaimLoop_rule (P := fun s₁ => s₁.req = s.req)
        (fun s₁ w _ k h₁ _ _ _ => (req_markTombstone s₁ t w.wrtClk k).trans h₁)
        (fun _ _ _ h₁ _ => h₁) rfl rfl
    have h2 : ∀ s₁ : State α β, s₁.req = s.req →
        (State.ckptLoop B mode t (s₁.tvNew t) s₁).req = s.req := by
      intro s₁ h₁
      exact ckptLoop_rule (P := fun s₂ => s₂.req = s.req) (fun _ _ _ _ _ h₂ _ _ _ _ => h₂)
        (fun _ _ _ h₂ _ _ _ => h₂) h₁ rfl
    have h3 := h2 ((State.reclaimLoop B mode t (s.tvOld t) s).rewind t) h1
    unfold State.tvlogReclaimX
    dsimp only [State.tvServed]
    rw [h3]
  unfold State.tvlogReclaim
  split
  · rename_i hn
    rw [← hn]
    exact (Function.update_eq_self t s.req).symm
  · exact hx _

theorem req_noteMinCkpt (s : State α β) (t : ℕ) : (s.noteMinCkpt t).req = s.req := by
  unfold State.noteMinCkpt
  split <;> rfl

/-- The requests after `ckptlog_reclaim`. -/
theorem req_ckptlogReclaim (s : State α β) (B t wb : ℕ) :
    (s.ckptlogReclaim B t wb).req = Function.update s.req t { s.req t with ckptlog := .none } := by
  have hx : ∀ budget, (s.ckptlogReclaimX B t budget).req =
      Function.update s.req t { s.req t with ckptlog := .none } := by
    intro budget
    have h1 := (dropLoop_rule (P := fun s₁ => s₁.req = s.req) (t := t) (s := s)
      (fun _ _ _ h₁ _ => h₁) rfl rfl).1
    have h2 : ((State.dropLoop t (s.ckOld t) s).noteMinCkpt t).req = s.req :=
      (req_noteMinCkpt _ t).trans h1
    have h3 : ∀ s₁ : State α β, s₁.req = s.req →
        (State.writebackLoop B t (s₁.ckNew t) budget s₁).req = s.req := by
      intro s₁ h₁
      exact writebackLoop_rule (P := fun s₂ => s₂.req = s.req) (fun _ _ _ h₂ _ _ _ _ => h₂)
        (fun _ _ _ h₂ _ _ _ => h₂) h₁ rfl
    unfold State.ckptlogReclaimX
    dsimp only [State.ckServed]
    rw [h3 _ h2]
  unfold State.ckptlogReclaim
  split
  · rename_i hn
    rw [← hn]
    exact (Function.update_eq_self t s.req).symm
  · exact hx _
  · exact hx _
  · exact hx _

/-- Reaping a zombie touches its clocks and requests only. -/
theorem reapLogs_frame (s : State α β) (B t : ℕ) :
    Quiet (s.syncClks t) (s.reapLogs B t) ∧ ∀ t' ≠ t, (s.reapLogs B t).req t' = s.req t' := by
  refine reapLogs_rule (P := fun s₁ => Quiet (s.syncClks t) s₁ ∧ ∀ t' ≠ t, s₁.req t' = s.req t')
    ⟨Quiet.refl _, fun _ _ => rfl⟩ ?_ ?_ ?_
  · rintro s₁ r ⟨h1, h2⟩
    refine ⟨{ h1 with }, fun t' hne => ?_⟩
    exact (Function.update_of_ne hne _ _).trans (h2 t' hne)
  · rintro s₁ ⟨h1, h2⟩ -
    refine ⟨h1.trans (quiet_tvlogReclaim s₁ t), fun t' hne => ?_⟩
    rw [req_tvlogReclaim, Function.update_of_ne hne]
    exact h2 t' hne
  · rintro s₁ ⟨h1, h2⟩
    refine ⟨h1.trans (quiet_ckptlogReclaim s₁ t 0), fun t' hne => ?_⟩
    rw [req_ckptlogReclaim, Function.update_of_ne hne]
    exact h2 t' hne

/-! ### The clocks of the QP thread -/

theorem core_qpInit {W v : ℕ} {c : List ℕ} (h : Core B s t W c) (hv : s.Reading B v)
    (hlt : ltClock B s.qpClks.qp0 (correctQpClock B v)) : Core B (s.qpInit v) t W c := by
  have hle : s.lastClk ≤ max s.lastClk v := le_max_left _ _
  refine { h with
    clocks := {
      max := max_lt h.clocks.max hv.2
      qp0 := h.clocks.qp0.imp_right fun hq => le_trans hq hle
      ckpt := h.clocks.ckpt
      nvm := h.clocks.nvm
      wait := fun clk hclk => ?_ }
    locks := { h.locks with }
    chains := { h.chains with
      mem := fun o k hk => ?_
      links := fun o => (h.chains.links o).mono fun _ _ => ⟨rfl, rfl, rfl, rfl, id⟩ }
    versions := { h.versions with }
    members := { h.members with old := fun t₁ w hw => le_trans (h.members.old t₁ w hw) hle } }
  · cases hclk
    exact ⟨le_max_right _ _, hlt⟩
  · obtain ⟨h1, h2, h3, h4⟩ := h.chains.mem o k hk
    exact ⟨h1, h2, h3, le_trans h4 hle⟩

theorem core_advanceQpClock {W clk : ℕ} {c : List ℕ} (h : Core B s t W c)
    (hp : s.phase = .waiting clk) : Core B (s.advanceQpClock B clk) t W c := by
  obtain ⟨hclk, hlt⟩ := h.clocks.wait clk hp
  rw [ltClock_iff, correctQpClock] at hlt
  have hckpt := h.clocks.ckpt
  refine { h with
    clocks := {
      max := h.clocks.max
      qp0 := ?_
      ckpt := ?_
      nvm := h.clocks.nvm
      wait := fun clk' hclk' => (by cases hclk') }
    locks := { h.locks with }
    chains := { h.chains with
      links := fun o => (h.chains.links o).mono fun _ _ => ⟨rfl, rfl, rfl, rfl, id⟩ }
    versions := { h.versions with detached := fun o k hk hd => ?_ }
    members := { h.members with } }
  · right
    show clk - B + B ≤ s.lastClk
    omega
  · show s.qpClks.lastCkpt ≤ clk - B
    omega
  · refine (h.versions.detached o k hk hd).imp_left fun hl => ?_
    show ltClock B (s.copies k).wrtClk (clk - B)
    rw [ltClock_iff] at *
    omega

theorem core_publish {W : ℕ} {c : List ℕ} {r : Reclaim} (h : Core B s t W c) :
    Core B (s.publish r) t W c := by
  unfold State.publish
  split
  · exact { h with
      clocks := {
        max := h.clocks.max
        qp0 := h.clocks.qp0
        ckpt := le_refl _
        nvm := rfl
        wait := fun clk' hclk' => (by cases hclk') }
      locks := { h.locks with }
      chains := { h.chains with
        links := fun o => (h.chains.links o).mono fun _ _ => ⟨rfl, rfl, rfl, rfl, id⟩ }
      versions := { h.versions with }
      members := { h.members with } }
  · exact h.congr {} fun _ hp => (by cases hp)

/-! ### The steps -/

theorem core_step {op : Op α β} (h : Inv B s) (hs : step B s op = some s') : Core B s' 0 0 [] := by
  have hc := h.core
  cases Step.of_step hs with
  | begin t v hl hn hv => exact core_start hc hn hv
  | lock t o kind ht hk hm => exact core_lock hc ht (h.tx.qp0 t ht) hk hm
  | write t k a => exact core_write hc
  | endRead t v info ht hws => exact core_stop hc hws
  | endTx t v info ht hv hgt =>
    rw [gtClock_iff] at hgt
    obtain ⟨h1, h2⟩ := core_tvlogCommit info (hc.retag t v) hv (by omega)
    exact (core_stop h1 h2).retag 0 0
  | abort t ht => exact core_stop (core_unlockAbort hc) (Function.update_self _ _ _)
  | tvlogReclaim t hm =>
    rcases h.synced_or_idle hm with hsy | he
    · exact core_tvlogReclaim hc hsy
    · rw [he]
      exact hc
  | ckptlogReclaim t wb => exact core_ckptlogReclaim hc t wb
  | zombinize t =>
    unfold State.zombinize
    split
    · exact hc.congr {} fun _ => id
    · exact hc.congr {} fun _ => id
  | threadFree t =>
    unfold State.threadFree
    dsimp only
    split
    · exact hc.congr {} fun _ => id
    · exact hc.congr {} fun _ => id
  | detect v _ hv hlt => exact core_qpInit hc hv hlt
  | detected clk hp => exact core_advanceQpClock hc hp
  | reap t => exact (core_reapThread hc t).congr {} fun _ hp => (by cases hp)
  | publish r => exact core_publish hc
  | threadInit t => exact hc.congr {} fun _ => id
  | deref t o => exact hc.congr {} fun _ => id
  | free t o => exact hc.congr {} fun _ => id
  | oplogReclaim t => exact hc.congr {} fun _ => id
  | finishStart t => exact hc.congr {} fun _ => id
  | finishOplog t => exact hc.congr {} fun _ => id
  | deregister t => exact hc.congr {} fun _ => id
  | request r => exact hc.congr {} fun _ => id
  | cleanup t clk => exact hc.congr {} fun _ => id
  | _ => exact hc.congr {} fun _ hp => (by cases hp)

theorem TxInv.of_stop (h : TxInv B s) (htx : ∀ t', s'.InTx t' → s.InTx t' ∧ s'.runCnt t' = s.runCnt t')
    (hlife : s'.life = s.life) (htids : s'.tids = s.tids) (hlocal : s'.localClk = s.localClk)
    (hwait : s'.needWait = s.needWait) (hcnt : s'.qpRunCnt = s.qpRunCnt)
    (hphase : s'.phase = s.phase) (hqp : s'.qpClks = s.qpClks) : TxInv B s' := by
  refine ⟨fun t ht => ?_, ?_, fun t ht => ?_, fun clk hclk t ht => ?_⟩
  · rw [hlife]
    exact h.live t (htx t ht).1
  · rw [hlife, htids]
    exact h.reg
  · rw [hqp, hlocal]
    exact h.qp0 t (htx t ht).1
  · rw [hphase] at hclk
    rw [hwait, hcnt, hlocal, (htx t ht).2]
    exact h.wait clk hclk t (htx t ht).1

theorem inTx_stop (ht : s.InTx t) {t' : ℕ} (ht' : (s.stop t).InTx t') :
    s.InTx t' ∧ (s.stop t).runCnt t' = s.runCnt t' := by
  change Function.update s.runCnt t (s.runCnt t + 1) t' % 2 = 1 at ht'
  have hne : t' ≠ t := by
    rintro rfl
    rw [Function.update_self] at ht'
    change s.runCnt t' % 2 = 1 at ht
    omega
  have he : (s.stop t).runCnt t' = s.runCnt t' := Function.update_of_ne hne _ _
  refine ⟨?_, he⟩
  rw [Function.update_of_ne hne] at ht'
  exact ht'

theorem txInv_stop (h : TxInv B s) (ht : s.InTx t) : TxInv B (s.stop t) :=
  h.of_stop (fun _ ht' => inTx_stop ht ht') rfl rfl rfl rfl rfl rfl rfl

/-- A thread that is in no transaction moves on in its life. -/
theorem txInv_life {l : Life} (h : TxInv B s) (htx : ¬ s.InTx t) (hreg : t ∈ s.tids) :
    TxInv B { s with life := Function.update s.life t l } := by
  refine { h with live := fun t' ht' => ?_, reg := fun t' ht' => ?_ }
  · have hne : t' ≠ t := by
      rintro rfl
      exact htx ht'
    exact (Function.update_of_ne hne _ _).trans (h.live t' ht')
  · by_cases he : t' = t
    · rw [he]
      exact hreg
    · change Function.update s.life t l t' ≠ _ at ht'
      rw [Function.update_of_ne he] at ht'
      exact h.reg t' ht'

theorem txInv_start {v : ℕ} (h : Inv B s) (hl : s.life t = .live) (hv : s.Reading B v) :
    TxInv B (s.start t v) := by
  have htx : ∀ {t'}, t' ≠ t → (s.start t v).InTx t' → s.InTx t' := by
    intro t' hne ht'
    change Function.update s.runCnt t _ t' % 2 = 1 at ht'
    rw [Function.update_of_ne hne] at ht'
    exact ht'
  refine ⟨fun t' ht' => ?_, h.tx.reg, fun t' ht' => ?_, fun clk hclk t' ht' => ?_⟩
  · by_cases he : t' = t
    · rw [he]
      exact hl
    · exact h.tx.live t' (htx he ht')
  · show s.qpClks.qp0 ≤ Function.update s.localClk t v t'
    by_cases he : t' = t
    · rw [he, Function.update_self]
      have h1 := h.core.clocks.qp0
      have h2 := hv.1
      omega
    · rw [Function.update_of_ne he]
      exact h.tx.qp0 t' (htx he ht')
  · show _ ∧ s.qpRunCnt t' = Function.update s.runCnt t _ t' ∨
      clk ≤ Function.update s.localClk t v t' + B
    by_cases he : t' = t
    · right
      rw [he, Function.update_self]
      exact le_trans (h.core.clocks.wait clk hclk).1 hv.1
    · rw [Function.update_of_ne he, Function.update_of_ne he]
      exact h.tx.wait clk hclk t' (htx he ht')

theorem sameThreads_commitCopy (h : SameThreads s s') (W k : ℕ) :
    SameThreads s (s'.commitCopy t W k) := by
  unfold State.commitCopy
  split
  · exact { h with }
  · split <;> exact { h with }

theorem sameThreads_tvlogCommit (s : State α β) (t W : ℕ) (info : β) :
    SameThreads s (s.tvlogCommit t W info) :=
  foldl_commitCopy_rule (P := SameThreads s) (fun _ k hs _ => sameThreads_commitCopy hs W k) {}

/-- What the other threads see when a zombie is reaped. -/
structure ReapFrame (t : ℕ) (s s' : State α β) : Prop where
  life : ∀ t' ≠ t, s'.life t' = s.life t'
  self : s'.life t = s.life t ∨ s'.life t = .gone
  req : ∀ t' ≠ t, s'.req t' = s.req t'
  clks : ∀ t' ≠ t, (s'.clks t').qp0 = (s.clks t').qp0 ∧ (s'.clks t').qp2 = (s.clks t').qp2 ∧
    (s'.clks t').lastCkpt = (s.clks t').lastCkpt
  runCnt : s'.runCnt = s.runCnt
  tids : s'.tids = s.tids
  localClk : s'.localClk = s.localClk
  qpClks : s'.qpClks = s.qpClks

theorem reapThread_frame (s : State α β) (B t : ℕ) : ReapFrame t s (s.reapThread B t) := by
  obtain ⟨hq, hreq⟩ := reapLogs_frame s B t
  have hlogs : ReapFrame t s (s.reapLogs B t) := {
    life := fun t' _ => congrFun hq.life t'
    self := Or.inl (congrFun hq.life t)
    req := hreq
    clks := fun t' hne => by
      have he : (s.syncClks t).clks t' = s.clks t' := Function.update_of_ne hne _ _
      rw [← he]
      exact hq.clks t'
    runCnt := hq.runCnt
    tids := hq.tids
    localClk := hq.localClk
    qpClks := hq.qpClks }
  refine reapThread_rule (P := ReapFrame t s) hlogs (fun _ => { hlogs with }) fun _ => { hlogs with
    life := fun t' hne => ?_
    self := Or.inr (Function.update_self _ _ _) }
  exact (Function.update_of_ne hne _ _).trans (hlogs.life t' hne)

theorem txInv_step {op : Op α β} (h : Inv B s) (hs : step B s op = some s') : TxInv B s' := by
  have ht := h.tx
  have hnotx : ∀ t, s.life t ≠ .live → ¬ s.InTx t := fun t hl htx => hl (ht.live t htx)
  cases Step.of_step hs with
  | threadInit t hf =>
    have hreg : TxInv B { s with tids := t :: s.tids } :=
      { ht with reg := fun t' ht' => List.mem_cons_of_mem _ (ht.reg t' ht') }
    exact (txInv_life (l := .live) hreg (hnotx t (by rw [hf]; simp)) List.mem_cons_self).congr {}
  | begin t v hl _ hv => exact txInv_start h hl hv
  | endRead t v info htx => exact txInv_stop ht htx
  | endTx t v info htx =>
    have hsame := sameThreads_tvlogCommit s t v info
    refine txInv_stop (ht.congr hsame) ?_
    rw [State.InTx, hsame.runCnt]
    exact htx
  | abort t htx => exact txInv_stop (s := s.unlockAbort t) (ht.congr {}) htx
  | tvlogReclaim t => exact ht.congr (quiet_tvlogReclaim s t).sameThreads
  | ckptlogReclaim t wb => exact ht.congr (quiet_ckptlogReclaim s t wb).sameThreads
  | finishStart t hl htx => exact txInv_life ht htx (ht.reg t (by rw [hl]; simp))
  | finishOplog t hl =>
    exact (txInv_life (l := .flushed) ht (hnotx t (by rw [hl]; simp))
      (ht.reg t (by rw [hl]; simp))).congr {}
  | deregister t hl =>
    have htx := hnotx t (by rw [hl]; simp)
    have hlife := txInv_life (l := .limbo) ht htx (ht.reg t (by rw [hl]; simp))
    refine { hlife with wait := fun clk hclk t' ht' => ?_ }
    have hne : t' ≠ t := by
      rintro rfl
      exact htx ht'
    show Function.update s.needWait t false t' = true ∧ _ ∨ _
    rw [Function.update_of_ne hne]
    exact ht.wait clk hclk t' ht'
  | zombinize t hl =>
    have htx := hnotx t (by rw [hl]; simp)
    have hreg := ht.reg t (by rw [hl]; simp)
    unfold State.zombinize
    split
    · exact (txInv_life (l := .gone) ht htx hreg).congr {}
    · exact txInv_life ht htx hreg
  | threadFree t =>
    unfold State.threadFree
    dsimp only
    split
    · exact ht.congr {}
    · exact ht.congr {}
  | detect v =>
    refine { ht with wait := fun clk _ t htx => Or.inl ?_ }
    have hl : s.InLive t := Or.inl (ht.live t htx)
    show (if s.InLive t then decide (s.InTx t) else s.needWait t) = true ∧
      (if s.InLive t then s.runCnt t else s.qpRunCnt t) = s.runCnt t
    rw [if_pos hl, if_pos hl]
    exact ⟨decide_eq_true htx, rfl⟩
  | detected clk hp hq =>
    refine { ht with
      qp0 := fun t htx => ?_
      wait := fun clk' hclk' => (by cases hclk') }
    -- the transactions that began before the detection are over
    have hl := ht.live t htx
    have hge : clk ≤ s.localClk t + B := by
      rcases ht.wait clk hp t htx with ⟨hw, hcnt⟩ | hle
      · rcases hq t (ht.reg t (by rw [hl]; simp)) (Or.inl hl) hw with hne | hge
        · exact absurd hcnt hne
        · rw [gteClock_iff] at hge
          exact hge
      · exact hle
    show clk - B ≤ s.localClk t
    omega
  | reap t r done _ hl =>
    have hf := reapThread_frame s B t
    have htx := hnotx t (by rw [hl]; simp)
    have hne : ∀ {t'}, (s.reapThread B t).runCnt t' % 2 = 1 → t' ≠ t ∧ s.InTx t' := by
      intro t' ht'
      rw [hf.runCnt] at ht'
      refine ⟨?_, ht'⟩
      rintro rfl
      exact htx ht'
    refine ⟨fun t' ht' => ?_, fun t' ht' => ?_, fun t' ht' => ?_, fun clk hclk => (by cases hclk)⟩
    · exact (hf.life t' (hne ht').1).trans (ht.live t' (hne ht').2)
    · show t' ∈ (s.reapThread B t).tids
      rw [hf.tids]
      by_cases he : t' = t
      · rw [he]
        exact ht.reg t (by rw [hl]; simp)
      · change (s.reapThread B t).life t' ≠ _ at ht'
        rw [hf.life t' he] at ht'
        exact ht.reg t' ht'
    · show (s.reapThread B t).qpClks.qp0 ≤ (s.reapThread B t).localClk t'
      rw [hf.qpClks, hf.localClk]
      exact ht.qp0 t' (hne ht').2
  | publish r =>
    unfold State.publish
    split
    · exact { ht with wait := fun clk hclk => (by cases hclk) }
    · exact { ht with wait := fun clk hclk => (by cases hclk) }
  | deref t o => exact ht.congr {}
  | lock t o kind => exact ht.congr {}
  | write t k a => exact ht.congr {}
  | free t o => exact ht.congr {}
  | oplogReclaim t => exact ht.congr {}
  | request r => exact ht.congr {}
  | cleanup t clk => exact ht.congr {}
  | _ => exact { ht with wait := fun clk hclk => (by cases hclk) }

/-- Between the rounds no request is pending. -/
theorem ReqInv.idle (h : ReqInv s) (hp : s.phase.active = none) (hl : s.InLive t) :
    s.req t = .none := by
  by_contra hr
  obtain ⟨-, r, hr', -⟩ := h t hl hr
  rw [hp] at hr'
  cases hr'

/-- The QP thread moves on within the part of the round in which requests are pending. -/
theorem ReqInv.phase (h : ReqInv s) {p : Phase} (hp : p.active = s.phase.active) :
    ReqInv { s with phase := p } := by
  intro t hl hr
  obtain ⟨hs, r, hr', ht⟩ := h t hl hr
  exact ⟨hs, r, hp.trans hr', ht⟩

/-- A thread that moves on in its life enters the live list only from there. -/
theorem inLive_of_update {l : Life} {t' : ℕ}
    (hl : s.InLive t ∨ ¬ (l = .live ∨ l = .finishing ∨ l = .flushed))
    (ht' : State.InLive { s with life := Function.update s.life t l } t') : s.InLive t' := by
  by_cases he : t' = t
  · subst he
    refine hl.resolve_right fun hn => hn ?_
    change Function.update s.life t' l t' = _ ∨ Function.update s.life t' l t' = _ ∨
      Function.update s.life t' l t' = _ at ht'
    rw [Function.update_self] at ht'
    exact ht'
  · change Function.update s.life t l t' = _ ∨ Function.update s.life t l t' = _ ∨
      Function.update s.life t l t' = _ at ht'
    rw [Function.update_of_ne he] at ht'
    exact ht'

theorem inLive_of_threadInit {t' : ℕ} (hne : t' ≠ t) (ht' : (s.threadInit t).InLive t') :
    s.InLive t' := by
  change Function.update s.life t _ t' = _ ∨ Function.update s.life t _ t' = _ ∨
    Function.update s.life t _ t' = _ at ht'
  rw [Function.update_of_ne hne] at ht'
  exact ht'

/-- While the live list is not locked, no request is being sent. -/
theorem not_trigger_of_unlocked (hp : ¬ s.LiveLocked) (r : Reclaim) (done : List ℕ) :
    s.phase ≠ .trigger r done := by
  intro hp'
  rw [State.LiveLocked, hp'] at hp
  exact hp trivial

/-- A thread gets no request while it moves on in its life. -/
theorem ReqInv.life (h : ReqInv s) {l : Life}
    (hl : s.InLive t ∨ ¬ (l = .live ∨ l = .finishing ∨ l = .flushed)) :
    ReqInv { s with life := Function.update s.life t l } := by
  intro t' hl' hr
  exact h t' (inLive_of_update hl hl') hr

theorem reqInv_step {op : Op α β} (h : Inv B s) (hs : step B s op = some s') : ReqInv s' := by
  have hr := h.req
  have hkeep : ∀ {s₁ : State α β}, s₁.life = s.life → s₁.phase = s.phase → s₁.qpClks = s.qpClks →
      s₁.clks = s.clks → s₁.req = s.req → ReqInv s₁ := by
    intro s₁ h1 h2 h3 h4 h5
    refine hr.congr h1 h2 h3 (fun t => ?_) fun t ht => ?_
    · rw [h4]
      exact ⟨rfl, rfl, rfl⟩
    · rw [h5] at ht ⊢
      exact ⟨ht, Or.inr rfl⟩
  -- where nothing is pending before, nothing is pending after
  have hnone : ∀ {s₁ : State α β}, s.phase.active = none → s₁.req = s.req → s₁.life = s.life →
      ReqInv s₁ := by
    intro s₁ hp hreq hlife t hl ht
    rw [State.InLive, hlife] at hl
    rw [hreq] at ht
    exact absurd (hr.idle hp hl) ht
  cases Step.of_step hs with
  | threadInit t hf =>
    intro t' hl ht
    change Function.update s.req t .none t' ≠ _ at ht
    have hne : t' ≠ t := by
      rintro rfl
      rw [Function.update_self] at ht
      exact ht rfl
    rw [Function.update_of_ne hne] at ht
    have hl' : s.InLive t' := by
      change Function.update s.life t .live t' = _ ∨ Function.update s.life t .live t' = _ ∨
        Function.update s.life t .live t' = _ at hl
      rw [Function.update_of_ne hne] at hl
      exact hl
    obtain ⟨hsy, r, hr', hm⟩ := hr t' hl' ht
    refine ⟨?_, r, hr', ?_⟩
    · show (Function.update s.clks t _ t').qp0 = _ ∧ (Function.update s.clks t _ t').qp2 = _ ∧
        (Function.update s.clks t _ t').lastCkpt = _
      rw [Function.update_of_ne hne]
      exact hsy
    · show (Function.update s.req t _ t').tvlog = _ ∨ (Function.update s.req t _ t').tvlog = _
      rw [Function.update_of_ne hne]
      exact hm
  | endTx t v info =>
    have hsame := sameThreads_tvlogCommit s t v info
    have hreq : (s.tvlogCommit t v info).req = s.req ∧ (s.tvlogCommit t v info).clks = s.clks := by
      refine foldl_commitCopy_rule (P := fun s₁ => s₁.req = s.req ∧ s₁.clks = s.clks) ?_ ⟨rfl, rfl⟩
      intro s₁ k h₁ _
      unfold State.commitCopy
      split
      · exact h₁
      · split <;> exact h₁
    exact hkeep hsame.life hsame.phase hsame.qpClks hreq.2 hreq.1
  | tvlogReclaim t =>
    have hq := quiet_tvlogReclaim (B := B) s t
    refine hr.congr hq.life hq.phase hq.qpClks hq.clks fun t' ht' => ?_
    rw [req_tvlogReclaim] at ht' ⊢
    by_cases he : t' = t
    · subst he
      rw [Function.update_self] at ht' ⊢
      refine ⟨fun hn => ht' ?_, Or.inl rfl⟩
      rw [hn]
      rfl
    · rw [Function.update_of_ne he] at ht' ⊢
      exact ⟨ht', Or.inr rfl⟩
  | ckptlogReclaim t wb =>
    have hq := quiet_ckptlogReclaim (B := B) s t wb
    refine hr.congr hq.life hq.phase hq.qpClks hq.clks fun t' ht' => ?_
    rw [req_ckptlogReclaim] at ht' ⊢
    by_cases he : t' = t
    · subst he
      rw [Function.update_self] at ht' ⊢
      refine ⟨fun hn => ht' ?_, Or.inr rfl⟩
      rw [hn]
      rfl
    · rw [Function.update_of_ne he] at ht' ⊢
      exact ⟨ht', Or.inr rfl⟩
  | finishStart t hl => exact hr.life (Or.inl (Or.inl hl))
  | finishOplog t hl => exact hr.life (Or.inl (Or.inr (Or.inl hl)))
  | deregister t => exact hr.life (Or.inr (by simp))
  | zombinize t =>
    unfold State.zombinize
    split
    · exact hr.life (Or.inr (by simp))
    · exact hr.life (Or.inr (by simp))
  | threadFree t =>
    unfold State.threadFree
    dsimp only
    split
    · exact hkeep rfl rfl rfl rfl rfl
    · exact hkeep rfl rfl rfl rfl rfl
  | detect v hp => exact hnone (by rw [hp]; rfl) rfl rfl
  | detected clk hp => exact hnone (by rw [hp]; rfl) rfl rfl
  | skip hp => exact hnone (by rw [hp]; rfl) rfl rfl
  | startTrigger hp => exact hnone (by rw [hp]; rfl) rfl rfl
  | publish r hp =>
    unfold State.publish
    exact hnone (by rw [hp]; rfl) rfl rfl
  | trigger t r done hp =>
    intro t' hl ht'
    change Function.update s.req t r t' ≠ _ at ht'
    show ((Function.update s.clks t s.qpClks t').qp0 = _ ∧
      (Function.update s.clks t s.qpClks t').qp2 = _ ∧
      (Function.update s.clks t s.qpClks t').lastCkpt = _) ∧ ∃ r', _ ∧
      ((Function.update s.req t r t').tvlog = _ ∨ (Function.update s.req t r t').tvlog = _)
    by_cases he : t' = t
    · subst he
      rw [Function.update_self, Function.update_self]
      exact ⟨⟨rfl, rfl, rfl⟩, r, rfl, Or.inr rfl⟩
    · rw [Function.update_of_ne he] at ht' ⊢
      rw [Function.update_of_ne he]
      obtain ⟨hsy, r', hr', hm⟩ := hr t' hl ht'
      rw [hp] at hr'
      exact ⟨hsy, r', hr', hm⟩
  | endTrigger r done hp => exact hr.phase (by rw [hp]; rfl)
  | reapLock r hp => exact hr.phase (by rw [hp]; rfl)
  | reapRetry r done hp => exact hr.phase (by rw [hp]; rfl)
  | endReap r done hp => exact hr.phase (by rw [hp]; rfl)
  | reap t r done hp hz =>
    have hf := reapThread_frame s B t
    intro t' hl ht'
    have hne : t' ≠ t := by
      rintro rfl
      change (s.reapThread B t').InLive t' at hl
      rw [State.InLive] at hl
      rcases hf.self with he | he
      · rw [he, hz] at hl
        simp at hl
      · rw [he] at hl
        simp at hl
    change (s.reapThread B t).req t' ≠ _ at ht'
    rw [hf.req t' hne] at ht'
    have hl' : s.InLive t' := by
      change (s.reapThread B t).InLive t' at hl
      rw [State.InLive, hf.life t' hne] at hl
      exact hl
    obtain ⟨hsy, r', hr', hm⟩ := hr t' hl' ht'
    refine ⟨?_, r', ?_, ?_⟩
    · show (s.reapThread B t).Synced t'
      obtain ⟨h1, h2, h3⟩ := hf.clks t' hne
      rw [State.Synced, h1, h2, h3, hf.qpClks]
      exact hsy
    · rw [hp] at hr'
      exact hr'
    · show ((s.reapThread B t).req t').tvlog = _ ∨ ((s.reapThread B t).req t').tvlog = _
      rw [hf.req t' hne]
      exact hm
  | startBarrier r hp hall =>
    intro t hl ht
    exact absurd (hall t (h.tx.mem_tids hl) hl) ht
  | _ => exact hkeep rfl rfl rfl rfl rfl

theorem inv_step {op : Op α β} (h : Inv B s) (hs : step B s op = some s') : Inv B s' :=
  ⟨core_step h hs, txInv_step h hs, reqInv_step h hs⟩

theorem inv_initial (org : ℕ → α) : Inv B (initial org : State α β) := by
  refine ⟨⟨⟨?_, Or.inl rfl, le_refl _, rfl, ?_⟩, ?_, ?_, ?_, ?_⟩, ⟨?_, ?_, ?_, ?_⟩, ?_⟩
  · show 0 < maxVersion
    decide
  · intro clk hclk
    cases hclk
  · have hheld : ∀ t k, ¬ (initial org : State α β).Held 0 [] t k := by
      rintro t k (hk | ⟨-, hk⟩) <;> cases hk
    refine ⟨fun t k hk => absurd hk (hheld t k), fun t k hk => absurd hk (hheld t k),
      fun t k hk => absurd hk (hheld t k), fun t k hk => absurd hk (hheld t k),
      fun t _ k hk => absurd hk (hheld t k), fun _ => List.nodup_nil,
      fun t k hk => absurd hk (hheld t k), fun k hk => ?_⟩
    cases hk
  · refine ⟨?_, fun _ => List.Pairwise.nil, fun _ => trivial, ?_, fun _ _ => rfl⟩
    · intro o k hk
      cases hk
    · intro o k hk
      cases hk
  · refine ⟨?_, ?_⟩
    · intro o k hk
      cases hk
    · intro o e he
      cases he
  · refine ⟨?_, ?_⟩
    · intro t w hw
      cases hw
    · intro t w hw
      cases hw
  · intro t ht
    cases ht
  · intro t ht
    exact absurd rfl ht
  · intro t ht
    cases ht
  · intro clk hclk
    cases hclk
  · intro t hl
    rcases hl with hl | hl | hl <;> cases hl

/-- The invariant holds in every state of every run. -/
theorem Reachable.inv {org : ℕ → α} {ok : State α β → Op α β → Prop}
    (hr : Reachable B org ok s) : Inv B s :=
  Run.Reach.invariant (fun _ h0 => h0 ▸ inv_initial org) (fun _ _ _ h _ hs => inv_step h hs) hr

end TimeStone.System
