/-
Version chains and what a checkpoint covers.

The copies of an object are linked from the newest to the oldest, and the chain is cut
where the newest copy was detached.  `wrt_clk_prev` of a copy that is not detached is
the clock of the next newer version.  A copy that `prev_head` has passed is detached or
superseded below the current quiescence clock, and a detached copy is not newer than the
current master.

* `Core` — the invariant; `core_*` — every operation preserves it;
* `Versions.le_curWrt` — a version below the published checkpoint is not newer than the
  current master.
-/
import TimeStone.System.Rules

namespace TimeStone.System

variable {α β : Type*} {B t W : ℕ} {s s' : State α β} {c : List ℕ}

/-- The write clock of the version that `np_cur_act` of `o` holds. -/
def State.curWrt (s : State α β) (o : ℕ) : ℕ :=
  match s.curAct o with
  | some e => (s.entries e).wrtClk
  | none => s.masterWrt o

/-- The copy `k` is locked by `t'` and not committed.  While `t` commits, `c` are the
copies of its write set that are left. -/
def State.Held (s : State α β) (t : ℕ) (c : List ℕ) (t' k : ℕ) : Prop :=
  k ∈ s.ws t' ∨ t' = t ∧ k ∈ c

/-- The locks of transactions and of freed objects. -/
structure Locks (B : ℕ) (s : State α β) (t : ℕ) (c : List ℕ) : Prop where
  lt : ∀ t' k, s.Held t c t' k → k < s.numCopies
  tx : ∀ t' k, s.Held t c t' k → s.InTx t'
  opn : ∀ t' k, s.Held t c t' k → (s.copies k).wrtClk = maxVersion ∧
    (s.copies k).kind ≠ .free ∧ s.status k = .none ∧ s.wrtClkPrev k = 0
  lock : ∀ t' k, s.Held t c t' k → s.pLock (s.copies k).obj = some k
  owner : ∀ t₁ t₂ k, s.Held t c t₁ k → s.Held t c t₂ k → t₁ = t₂
  nodup : ∀ t', (s.ws t').Nodup
  newest : ∀ t' k, s.Held t c t' k → ∀ j ∈ (s.hist (s.copies k).obj).head?,
    ltClock B (s.copies j).wrtClk (s.localClk t')
  freed : ∀ k < s.numCopies, (s.copies k).kind = .free →
    s.pLock (s.copies k).obj = some k ∧ s.freeClk (s.copies k).obj = some (s.copies k).wrtClk ∧
      ∀ j ∈ s.hist (s.copies k).obj, (s.copies j).wrtClk ≤ (s.copies k).wrtClk

/-- How the copy `k` is linked to the next older version. -/
def Link (s : State α β) (k : ℕ) : Option ℕ → Prop
  | none => (s.copies k).pCopy = none ∧ (s.copies k).wrtClkNext = 0
  | some j =>
    (s.copies k).pCopy = some j ∧ (s.copies k).wrtClkNext = (s.copies j).wrtClk ∧
        s.wrtClkPrev j = (s.copies k).wrtClk ∨
      (s.copies k).pCopy = none ∧ (s.copies k).wrtClkNext = 0 ∧ s.status j = .detached ∧
        s.wrtClkPrev j = maxVersion

/-- The copies of a chain are linked. -/
def Links (s : State α β) : List ℕ → Prop
  | [] => True
  | k :: ks => Link s k ks.head? ∧ Links s ks

/-- The chains of versions. -/
structure Chains (B : ℕ) (s : State α β) : Prop where
  mem : ∀ o, ∀ k ∈ s.hist o, k < s.numCopies ∧ (s.copies k).obj = o ∧
    (s.copies k).kind = .copy ∧ (s.copies k).wrtClk ≤ s.lastClk
  sorted : ∀ o, (s.hist o).Pairwise fun k j =>
    ltClock B (s.copies j).wrtClk (s.copies k).wrtClk
  links : ∀ o, Links s (s.hist o)
  top : ∀ o, ∀ k ∈ (s.hist o).head?, s.wrtClkPrev k = maxVersion ∧
    (s.pCopy o = some k ∧ s.status k ≠ .detached ∨ s.pCopy o = none ∧ s.status k = .detached)
  nil : ∀ o, s.hist o = [] → s.pCopy o = none

/-- What reclamation and checkpoints have done with the versions. -/
structure Versions (B : ℕ) (s : State α β) : Prop where
  detached : ∀ o, ∀ k ∈ s.hist o, s.status k = .detached →
    ltClock B (s.copies k).wrtClk s.qpClks.qp0 ∧ (s.copies k).wrtClk ≤ s.curWrt o
  entry : ∀ o e, s.curAct o = some e → e < s.numEntries ∧ (s.entries e).obj = o

/-- The copies of the write sets in the transient version logs. -/
structure Members (s : State α β) (t W : ℕ) (c : List ℕ) : Prop where
  old : ∀ t', ∀ w ∈ s.tvOld t' ++ s.tvNew t', w.wrtClk ≤ s.lastClk
  copy : ∀ t', ∀ w ∈ s.tvOld t' ++ s.tvNew t', ∀ k ∈ w.copies, k < s.numCopies ∧
    (t' = t ∧ k ∈ c ∧ w.wrtClk = W ∨ (s.copies k).wrtClk = w.wrtClk ∧
      ((s.copies k).kind = .copy → k ∈ s.hist (s.copies k).obj) ∧
      ((s.copies k).kind = .const → s.wrtClkPrev k = 0))

/-- The clocks. -/
structure Clocks (B : ℕ) (s : State α β) : Prop where
  max : s.lastClk < maxVersion
  qp0 : s.qpClks.qp0 = 0 ∨ s.qpClks.qp0 + B ≤ s.lastClk
  ckpt : s.qpClks.lastCkpt ≤ s.qpClks.qp0
  nvm : s.nvmLastCkpt = s.qpClks.lastCkpt
  wait : ∀ clk, s.phase = .waiting clk → clk ≤ s.lastClk ∧
    ltClock B s.qpClks.qp0 (correctQpClock B clk)

/-- The invariant of the versions, in the middle of a commit of `t` with clock `W`. -/
structure Core (B : ℕ) (s : State α β) (t W : ℕ) (c : List ℕ) : Prop where
  clocks : Clocks B s
  locks : Locks B s t c
  chains : Chains B s
  versions : Versions B s
  members : Members s t W c

/-- The thread has the clocks of the QP thread. -/
def State.Synced (s : State α β) (t : ℕ) : Prop :=
  (s.clks t).qp0 = s.qpClks.qp0 ∧ (s.clks t).qp2 = s.qpClks.qp2 ∧
    (s.clks t).lastCkpt = s.qpClks.lastCkpt

/-! ### Chains -/

theorem Link.mono {k : ℕ} {j : Option ℕ} (h : Link s k j)
    (hk : (s'.copies k).pCopy = (s.copies k).pCopy ∧
      (s'.copies k).wrtClkNext = (s.copies k).wrtClkNext ∧
      (s'.copies k).wrtClk = (s.copies k).wrtClk)
    (hj : ∀ i ∈ j, (s'.copies i).wrtClk = (s.copies i).wrtClk ∧
      s'.wrtClkPrev i = s.wrtClkPrev i ∧ (s.status i = .detached → s'.status i = .detached)) :
    Link s' k j := by
  cases j with
  | none => exact ⟨hk.1.trans h.1, hk.2.1.trans h.2⟩
  | some j =>
    obtain ⟨e1, e2, e3⟩ := hj j rfl
    rcases h with ⟨h1, h2, h3⟩ | ⟨h1, h2, h3, h4⟩
    · left
      exact ⟨hk.1.trans h1, by rw [hk.2.1, h2, e1], by rw [e2, h3, hk.2.2]⟩
    · right
      exact ⟨hk.1.trans h1, hk.2.1.trans h2, e3 h3, e2.trans h4⟩

/-- The links do not depend on `wrt_clk_prev` and the status of the newest copy. -/
theorem Links.mono_tail {ks : List ℕ} (h : Links s ks)
    (hk : ∀ k ∈ ks, (s'.copies k).pCopy = (s.copies k).pCopy ∧
      (s'.copies k).wrtClkNext = (s.copies k).wrtClkNext ∧
      (s'.copies k).wrtClk = (s.copies k).wrtClk)
    (ht : ∀ k ∈ ks.tail, s'.wrtClkPrev k = s.wrtClkPrev k ∧
      (s.status k = .detached → s'.status k = .detached)) : Links s' ks := by
  induction ks with
  | nil => trivial
  | cons k ks ih =>
    obtain ⟨h1, h2⟩ := h
    refine ⟨h1.mono (hk k List.mem_cons_self) fun i hi => ?_, ih h2
      (fun k hk' => hk k (List.mem_cons_of_mem _ hk')) fun k hk' => ht k (List.mem_of_mem_tail hk')⟩
    have hi' := List.mem_of_mem_head? hi
    exact ⟨(hk i (List.mem_cons_of_mem _ hi')).2.2, ht i hi'⟩

theorem Links.mono {ks : List ℕ} (h : Links s ks)
    (hk : ∀ k ∈ ks, (s'.copies k).pCopy = (s.copies k).pCopy ∧
      (s'.copies k).wrtClkNext = (s.copies k).wrtClkNext ∧
      (s'.copies k).wrtClk = (s.copies k).wrtClk ∧ s'.wrtClkPrev k = s.wrtClkPrev k ∧
      (s.status k = .detached → s'.status k = .detached)) : Links s' ks :=
  h.mono_tail (fun k hk' => ⟨(hk k hk').1, (hk k hk').2.1, (hk k hk').2.2.1⟩)
    fun k hk' => (hk k (List.mem_of_mem_tail hk')).2.2.2

/-- The next newer version of a copy that is not detached is in `wrt_clk_prev`. -/
theorem Links.prev_eq {newer older : List ℕ} {k₂ k : ℕ}
    (h : Links s (newer ++ k₂ :: k :: older)) (hd : s.status k ≠ .detached) :
    s.wrtClkPrev k = (s.copies k₂).wrtClk := by
  induction newer with
  | nil =>
    rcases h.1 with h1 | h1
    · exact h1.2.2
    · exact absurd h1.2.2.1 hd
  | cons k' newer ih => exact ih h.2

theorem Chains.obj_inj (h : Chains B s) {o o' k : ℕ} (hk : k ∈ s.hist o) (hk' : k ∈ s.hist o') :
    o = o' := (h.mem o k hk).2.1.symm.trans (h.mem o' k hk').2.1

/-- A newer version has a later clock. -/
theorem Chains.split_lt (h : Chains B s) {o k : ℕ} {newer older : List ℕ}
    (hs : s.hist o = newer ++ k :: older) :
    (∀ j ∈ newer, ltClock B (s.copies k).wrtClk (s.copies j).wrtClk) ∧
      ∀ j ∈ older, ltClock B (s.copies j).wrtClk (s.copies k).wrtClk := by
  have hp := h.sorted o
  rw [hs] at hp
  obtain ⟨-, h2, h3⟩ := List.pairwise_append.mp hp
  exact ⟨fun j hj => h3 j hj k List.mem_cons_self, (List.pairwise_cons.mp h2).1⟩

/-- `wrt_clk_prev` of a copy that is not detached: the newest copy has none. -/
theorem Chains.prev_cases (h : Chains B s) {o k : ℕ} (hk : k ∈ s.hist o)
    (hd : s.status k ≠ .detached) :
    (s.wrtClkPrev k = maxVersion ∧ ∀ j ∈ s.hist o, (s.copies j).wrtClk ≤ (s.copies k).wrtClk) ∨
    ∃ k₂ ∈ s.hist o, s.wrtClkPrev k = (s.copies k₂).wrtClk ∧
      (s.copies k).wrtClk < (s.copies k₂).wrtClk ∧
      ∀ j ∈ s.hist o, (s.copies j).wrtClk ≤ (s.copies k).wrtClk ∨
        (s.copies k₂).wrtClk ≤ (s.copies j).wrtClk := by
  obtain ⟨newer, older, hs⟩ := List.append_of_mem hk
  obtain ⟨hnew, hold⟩ := h.split_lt hs
  rcases List.eq_nil_or_concat newer with rfl | ⟨newer, k₂, rfl⟩
  · left
    refine ⟨(h.top o k (by rw [hs]; rfl)).1, fun j hj => ?_⟩
    rw [hs, List.nil_append] at hj
    rcases List.mem_cons.mp hj with rfl | hj
    · exact le_refl _
    · have := hold j hj
      rw [ltClock_iff] at this
      omega
  · right
    rw [List.concat_eq_append, List.append_assoc, List.singleton_append] at hs
    have hk₂ := hnew k₂ (by simp)
    rw [ltClock_iff] at hk₂
    have hl := h.links o
    rw [hs] at hl
    obtain ⟨hnew₂, -⟩ := h.split_lt hs
    refine ⟨k₂, by rw [hs]; simp, hl.prev_eq hd, by omega, fun j hj => ?_⟩
    rw [hs] at hj
    rcases List.mem_append.mp hj with hj | hj
    · have := hnew₂ j hj
      rw [ltClock_iff] at this
      omega
    · rcases List.mem_cons.mp hj with rfl | hj
      · exact Or.inr (le_refl _)
      rcases List.mem_cons.mp hj with rfl | hj
      · exact Or.inl (le_refl _)
      · have := hold j hj
        rw [ltClock_iff] at this
        omega

/-- A copy in a log, when no commit is under way. -/
theorem Core.member (h : Core B s t W []) {t' k : ℕ} {w : WrtSet}
    (hw : w ∈ s.tvOld t' ++ s.tvNew t') (hk : k ∈ w.copies) :
    k < s.numCopies ∧ (s.copies k).wrtClk = w.wrtClk ∧
      ((s.copies k).kind = .copy → k ∈ s.hist (s.copies k).obj) ∧
      ((s.copies k).kind = .const → s.wrtClkPrev k = 0) := by
  obtain ⟨h1, h2⟩ := h.members.copy t' w hw k hk
  refine ⟨h1, ?_⟩
  rcases h2 with ⟨-, h2, -⟩ | h2
  · cases h2
  · exact h2

/-- A state that agrees with `s` on what the invariant is about. -/
structure SameCore (s s' : State α β) : Prop where
  pLock : s'.pLock = s.pLock := by rfl
  pCopy : s'.pCopy = s.pCopy := by rfl
  curAct : s'.curAct = s.curAct := by rfl
  copies : s'.copies = s.copies := by rfl
  numCopies : s'.numCopies = s.numCopies := by rfl
  wrtClkPrev : s'.wrtClkPrev = s.wrtClkPrev := by rfl
  status : s'.status = s.status := by rfl
  entries : s'.entries = s.entries := by rfl
  numEntries : s'.numEntries = s.numEntries := by rfl
  runCnt : s'.runCnt = s.runCnt := by rfl
  localClk : s'.localClk = s.localClk := by rfl
  ws : s'.ws = s.ws := by rfl
  tvOld : s'.tvOld = s.tvOld := by rfl
  tvNew : s'.tvNew = s.tvNew := by rfl
  qpClks : s'.qpClks.qp0 = s.qpClks.qp0 ∧ s'.qpClks.lastCkpt = s.qpClks.lastCkpt := by
    exact ⟨rfl, rfl⟩
  nvmLastCkpt : s'.nvmLastCkpt = s.nvmLastCkpt := by rfl
  lastClk : s'.lastClk = s.lastClk := by rfl
  hist : s'.hist = s.hist := by rfl
  freeClk : s'.freeClk = s.freeClk := by rfl
  masterWrt : s'.masterWrt = s.masterWrt := by rfl

theorem Core.congr (h : Core B s t W c) (he : SameCore s s')
    (hw : ∀ clk, s'.phase = .waiting clk → s.phase = .waiting clk) : Core B s' t W c := by
  obtain ⟨hq, hl⟩ := he.qpClks
  have hlinks : ∀ o, Links s' (s.hist o) := fun o => (h.chains.links o).mono fun k _ => by
    rw [he.copies, he.wrtClkPrev, he.status]
    exact ⟨rfl, rfl, rfl, rfl, id⟩
  obtain ⟨⟩ := s'
  obtain ⟨h1, h2, h3, h4, h5, h6, h7, h8, h9, h10, h11, h12, h13, h14, -, h15, h16, h17, h18,
    h19⟩ := he
  dsimp only at *
  subst h1 h2 h3 h4 h5 h6 h7 h8 h9 h10 h11 h12 h13 h14 h15 h16 h17 h18 h19
  exact {
    clocks := {
      max := h.clocks.max
      qp0 := by rw [hq]; exact h.clocks.qp0
      ckpt := by rw [hl, hq]; exact h.clocks.ckpt
      nvm := by rw [hl]; exact h.clocks.nvm
      wait := fun clk hclk => by rw [hq]; exact h.clocks.wait clk (hw clk hclk) }
    locks := { h.locks with }
    chains := { h.chains with links := hlinks }
    versions := {
      detached := by rw [hq]; exact h.versions.detached
      entry := h.versions.entry }
    members := { h.members with } }

/-! ### Reclamation -/

theorem core_ckptlogEnq (h : Core B s t W c) {t' : ℕ} {x : CkptEntry α}
    (hx : ∀ j ∈ s.hist x.obj, s.status j = .detached → (s.copies j).wrtClk ≤ x.wrtClk) :
    Core B (s.ckptlogEnq t' x) t W c := by
  have hentries : ∀ e < s.numEntries,
      Function.update s.entries s.numEntries x e = s.entries e := by
    intro e he
    exact Function.update_of_ne (by omega) _ _
  refine { h with
    clocks := { h.clocks with }
    locks := { h.locks with }
    chains := { h.chains with links := fun o => (h.chains.links o).mono fun _ _ => ⟨rfl, rfl, rfl, rfl, id⟩ }
    versions := { h.versions with detached := fun o k hk hd => ?_, entry := fun o e he => ?_ }
    members := { h.members with } }
  · obtain ⟨h1, h2⟩ := h.versions.detached o k hk hd
    refine ⟨h1, ?_⟩
    show _ ≤ (match Function.update s.curAct x.obj (some s.numEntries) o with
      | some e => (Function.update s.entries s.numEntries x e).wrtClk
      | none => s.masterWrt o)
    by_cases ho : o = x.obj
    · subst ho
      rw [Function.update_self]
      dsimp only
      rw [Function.update_self]
      exact hx k hk hd
    · rw [Function.update_of_ne ho]
      unfold State.curWrt at h2
      cases hcur : s.curAct o with
      | none =>
        rw [hcur] at h2
        exact h2
      | some e =>
        rw [hcur] at h2
        dsimp only at h2 ⊢
        rw [hentries e (h.versions.entry o e hcur).1]
        exact h2
  · change Function.update s.curAct x.obj (some s.numEntries) o = some e at he
    show e < s.numEntries + 1 ∧ (Function.update s.entries s.numEntries x e).obj = o
    by_cases ho : o = x.obj
    · subst ho
      rw [Function.update_self, Option.some_inj] at he
      subst he
      exact ⟨Nat.lt_succ_self _, by rw [Function.update_self]⟩
    · rw [Function.update_of_ne ho] at he
      obtain ⟨h1, h2⟩ := h.versions.entry o e he
      rw [hentries e h1]
      exact ⟨Nat.lt_succ_of_lt h1, h2⟩

/-- The status of a copy that is no version and not held does not matter. -/
theorem core_setStatus (h : Core B s t W c) {k : ℕ} {x : Status}
    (hk : (s.copies k).kind = .free) :
    Core B { s with status := Function.update s.status k x } t W c := by
  have hhist : ∀ o, ∀ j ∈ s.hist o, Function.update s.status k x j = s.status j := by
    intro o j hj
    refine Function.update_of_ne ?_ _ _
    rintro rfl
    have := (h.chains.mem o j hj).2.2.1
    rw [hk] at this
    cases this
  have hheld : ∀ t' j, s.Held t c t' j → Function.update s.status k x j = s.status j := by
    intro t' j hj
    refine Function.update_of_ne ?_ _ _
    rintro rfl
    exact (h.locks.opn t' j hj).2.1 hk
  refine { h with
    clocks := { h.clocks with }
    locks := { h.locks with opn := fun t' j hj => ?_ }
    chains := { h.chains with links := fun o => ?_, top := fun o j hj => ?_ }
    versions := { h.versions with detached := fun o j hj => ?_ }
    members := { h.members with } }
  · obtain ⟨h1, h2, h3, h4⟩ := h.locks.opn t' j hj
    exact ⟨h1, h2, (hheld t' j hj).trans h3, h4⟩
  · refine (h.chains.links o).mono fun j hj => ⟨rfl, rfl, rfl, rfl, fun hd => ?_⟩
    exact (hhist o j hj).trans hd
  · show s.wrtClkPrev j = maxVersion ∧ (s.pCopy o = some j ∧ Function.update s.status k x j ≠ _ ∨
      s.pCopy o = none ∧ Function.update s.status k x j = _)
    rw [hhist o j (List.mem_of_mem_head? hj)]
    exact h.chains.top o j hj
  · show Function.update s.status k x j = _ → _
    rw [hhist o j hj]
    exact h.versions.detached o j hj

/-- A free record is no version, so marking it leaves the status of the versions alone. -/
theorem Core.status_of_free (h : Core B s t W c) {k : ℕ} (hkind : (s.copies k).kind = .free)
    (x : Status) (o : ℕ) : ∀ j ∈ s.hist o, Function.update s.status k x j = s.status j := by
  intro j hj
  refine Function.update_of_ne ?_ _ _
  rintro rfl
  rw [(h.chains.mem o j hj).2.2.1] at hkind
  contradiction

/-- A freed object gets its tombstone: no version is newer than the free. -/
theorem core_markTombstone (h : Core B s t W []) {t' k : ℕ} {w : WrtSet} (hw : w ∈ s.tvOld t')
    (hk : k ∈ w.copies) (hkind : (s.copies k).kind = .free) :
    Core B (s.markTombstone t' w.wrtClk k) t W [] := by
  obtain ⟨hlt, hwrt, -, -⟩ := h.member (List.mem_append_left _ hw) hk
  obtain ⟨-, -, hnew⟩ := h.locks.freed k hlt hkind
  unfold State.markTombstone
  dsimp only
  split
  · exact h
  split
  · have henq : Core B (s.ckptlogEnq t'
        ⟨(s.copies k).obj, w.wrtClk, (s.clks t').qp0, true, none⟩) t W [] :=
      core_ckptlogEnq h fun j hj _ => (hnew j hj).trans (le_of_eq hwrt)
    have hset := core_setStatus (k := k) (x := .tombstoneMarked) henq hkind
    exact hset.congr {} fun _ => id
  · have hset := core_setStatus (k := k) (x := .tombstoneMarked) h hkind
    exact hset.congr {} fun _ => id

/-- The write sets of the logs change their places. -/
theorem core_setTv (h : Core B s t W c) {tvOld tvNew : ℕ → List WrtSet} {reclaimed : ℕ → Bool}
    (hmem : ∀ t', ∀ w ∈ tvOld t' ++ tvNew t', w ∈ s.tvOld t' ++ s.tvNew t') :
    Core B { s with tvOld := tvOld, tvNew := tvNew, reclaimed := reclaimed } t W c :=
  { h with
    clocks := { h.clocks with }
    locks := { h.locks with }
    chains := { h.chains with
      links := fun o => (h.chains.links o).mono fun _ _ => ⟨rfl, rfl, rfl, rfl, id⟩ }
    versions := { h.versions with }
    members := {
      old := fun t' w hw => h.members.old t' w (hmem t' w hw)
      copy := fun t' w hw => h.members.copy t' w (hmem t' w hw) } }

theorem core_dropSet (h : Core B s t W c) {t' : ℕ} {w : WrtSet} {rest : List WrtSet}
    (hw : s.tvOld t' = w :: rest) : Core B (s.dropSet t' w rest) t W c := by
  refine core_setTv h fun t₁ w₁ hw₁ => ?_
  change w₁ ∈ Function.update s.tvOld t' rest t₁ ++ s.tvNew t₁ at hw₁
  by_cases he : t₁ = t'
  · subst he
    rw [Function.update_self] at hw₁
    rw [hw]
    exact List.mem_cons_of_mem _ hw₁
  · rw [Function.update_of_ne he] at hw₁
    exact hw₁

theorem core_rewind (h : Core B s t W c) (t' : ℕ) : Core B (s.rewind t') t W c := by
  refine core_setTv h fun t₁ w₁ hw₁ => ?_
  change w₁ ∈ Function.update s.tvOld t' [] t₁ ++
    Function.update s.tvNew t' (s.tvOld t' ++ s.tvNew t') t₁ at hw₁
  by_cases he : t₁ = t'
  · subst he
    rw [Function.update_self, Function.update_self] at hw₁
    exact hw₁
  · rw [Function.update_of_ne he, Function.update_of_ne he] at hw₁
    exact hw₁

theorem core_passSet (h : Core B s t W c) {t' : ℕ} {w : WrtSet} {rest : List WrtSet}
    (hw : s.tvNew t' = w :: rest) : Core B (s.passSet t' w rest) t W c := by
  refine core_setTv h fun t₁ w₁ hw₁ => ?_
  change w₁ ∈ Function.update s.tvOld t' (s.tvOld t' ++ [w]) t₁ ++
    Function.update s.tvNew t' rest t₁ at hw₁
  by_cases he : t₁ = t'
  · subst he
    rw [Function.update_self, Function.update_self] at hw₁
    rw [hw]
    simpa using hw₁
  · rw [Function.update_of_ne he, Function.update_of_ne he] at hw₁
    exact hw₁

theorem core_tryDetachObj (h : Core B s t W c) {o k : ℕ} (hk : k ∈ s.hist o)
    (hlt : ltClock B (s.copies k).wrtClk s.qpClks.qp0)
    (hcur : (s.copies k).wrtClk ≤ s.curWrt o) : Core B (s.tryDetachObj k) t W c := by
  have hobj : (s.copies k).obj = o := (h.chains.mem o k hk).2.1
  -- a version is not held
  have hheld : ∀ t' j, s.Held t c t' j → j ≠ k := by
    rintro t' j hj rfl
    have h1 := (h.locks.opn t' j hj).1
    have h2 := (h.chains.mem o j hk).2.2.2
    have h3 := h.clocks.max
    omega
  have hstatus : ∀ j, (s.tryDetachObj k).status j = if j = k then .detached else s.status j := by
    intro j
    exact Function.update_apply _ _ _ _
  have hpCopy : ∀ o', (s.tryDetachObj k).pCopy o' =
      if s.pCopy o' = some k ∧ o' = o then none else s.pCopy o' := by
    intro o'
    simp only [State.tryDetachObj, hobj]
    by_cases ho : o' = o
    · subst ho
      by_cases hp : s.pCopy o' = some k
      · simp [hp]
      · simp [hp]
    · by_cases hp : s.pCopy o = some k
      · simp [hp, ho]
      · simp [hp, ho]
  refine { h with
    clocks := { h.clocks with }
    locks := { h.locks with opn := fun t' j hj => ?_ }
    chains := { h.chains with links := fun o' => ?_, top := fun o' j hj => ?_, nil := fun o' ho' => ?_ }
    versions := { h.versions with detached := fun o' j hj hd => ?_ }
    members := { h.members with } }
  · rw [hstatus, if_neg (hheld t' j hj)]
    exact h.locks.opn t' j hj
  · refine (h.chains.links o').mono fun j _ => ⟨rfl, rfl, rfl, rfl, fun hd => ?_⟩
    rw [hstatus]
    split
    · rfl
    · exact hd
  · obtain ⟨h1, h2⟩ := h.chains.top o' j hj
    refine ⟨h1, ?_⟩
    rw [hstatus, hpCopy]
    by_cases hjk : j = k
    · subst hjk
      have ho : o' = o := h.chains.obj_inj (List.mem_of_mem_head? hj) hk
      subst ho
      right
      rw [if_pos rfl]
      refine ⟨?_, rfl⟩
      split
      · rfl
      · rename_i hn
        rcases h2 with h2 | h2
        · exact absurd ⟨h2.1, rfl⟩ hn
        · exact h2.1
    · rw [if_neg hjk]
      rcases h2 with h2 | h2
      · left
        rw [if_neg, h2.1]
        · exact ⟨rfl, h2.2⟩
        · rw [h2.1, Option.some_inj]
          exact fun hn => hjk hn.1
      · right
        rw [h2.1]
        exact ⟨by split <;> rfl, h2.2⟩
  · rw [hpCopy, h.chains.nil o' ho']
    split <;> rfl
  · by_cases hjk : j = k
    · subst hjk
      cases h.chains.obj_inj hj hk
      exact ⟨hlt, hcur⟩
    · rw [hstatus, if_neg hjk] at hd
      exact h.versions.detached o' j hj hd

/-- A copy that has to be checkpointed is the newest version below the clock. -/
theorem Core.needsCkpt (h : Core B s t W []) {t' k : ℕ} {w : WrtSet} (hs : s.Synced t')
    (hw : w ∈ s.tvNew t') (hk : k ∈ w.copies) (hlt : ltClock B w.wrtClk (s.clks t').qp0)
    (hn : s.NeedsCkpt B t' k) :
    k ∈ s.hist (s.copies k).obj ∧ (s.copies k).wrtClk = w.wrtClk ∧
      ltClock B (s.copies k).wrtClk s.qpClks.qp0 ∧
      ∀ j ∈ s.hist (s.copies k).obj, ltClock B (s.copies j).wrtClk s.qpClks.qp0 →
        (s.copies j).wrtClk ≤ (s.copies k).wrtClk := by
  obtain ⟨-, hwrt, hcopy, hconst⟩ := h.member (List.mem_append_right _ hw) hk
  obtain ⟨hkind, hd, hb⟩ := hn
  rw [← hwrt, hs.1] at hlt
  unfold State.IsAtBorderline at hb
  rw [hs.1, hs.2.2] at hb
  have hhist : k ∈ s.hist (s.copies k).obj := by
    cases hkd : (s.copies k).kind with
    | copy => exact hcopy hkd
    | free => exact absurd hkd hkind
    | const =>
      -- a copy of size zero is never newer than the clock
      rw [hconst hkd, if_neg (by decide)] at hb
      have hge := hb.1
      rw [gteClock_iff] at hge
      rw [ltClock_iff] at hlt
      omega
  refine ⟨hhist, hwrt, hlt, fun j hj hjlt => ?_⟩
  rcases h.chains.prev_cases hhist hd with ⟨-, hnew⟩ | ⟨k₂, hk₂, he, -, hcases⟩
  · exact hnew j hj
  · have hmax := h.clocks.max
    have hle := (h.chains.mem _ k₂ hk₂).2.2.2
    rw [if_neg (by omega)] at hb
    have hge := hb.1
    rcases hcases j hj with hle' | hle'
    · exact hle'
    · rw [gteClock_iff] at hge
      rw [ltClock_iff] at hjlt
      omega

theorem curWrt_ckptlogEnq (s : State α β) (t : ℕ) (x : CkptEntry α) :
    (s.ckptlogEnq t x).curWrt x.obj = x.wrtClk := by
  simp [State.curWrt, State.ckptlogEnq]

theorem core_checkpoint (h : Core B s t W []) {t' k : ℕ} {w : WrtSet} (hs : s.Synced t')
    (hw : w ∈ s.tvNew t') (hk : k ∈ w.copies) (hlt : ltClock B w.wrtClk (s.clks t').qp0)
    (hn : s.NeedsCkpt B t' k) : Core B (s.checkpoint t' w.wrtClk k) t W [] := by
  obtain ⟨hhist, hwrt, hlt', hnew⟩ := h.needsCkpt hs hw hk hlt hn
  refine core_tryDetachObj (core_ckptlogEnq h fun j hj hd => ?_) hhist hlt' (le_of_eq ?_)
  · rw [← hwrt]
    exact hnew j hj (h.versions.detached _ j hj hd).1
  · exact hwrt.trans (curWrt_ckptlogEnq s t' ⟨(s.copies k).obj, w.wrtClk, _, _, _⟩).symm

theorem curWrt_writeback {e : ℕ} (s : State α β) (he : s.curAct (s.entries e).obj = some e)
    (o : ℕ) : (s.writeback e).curWrt o = s.curWrt o := by
  by_cases ho : o = (s.entries e).obj
  · subst ho
    simp [State.curWrt, State.writeback, he]
  · simp [State.curWrt, State.writeback, ho]

theorem core_writeback (h : Core B s t W c) {e : ℕ} (he : s.curAct (s.entries e).obj = some e) :
    Core B (s.writeback e) t W c := by
  refine { h with
    clocks := { h.clocks with }
    locks := { h.locks with }
    chains := { h.chains with
      links := fun o => (h.chains.links o).mono fun _ _ => ⟨rfl, rfl, rfl, rfl, id⟩ }
    versions := { h.versions with detached := fun o k hk hd => ?_, entry := fun o e' he' => ?_ }
    members := { h.members with } }
  · obtain ⟨h1, h2⟩ := h.versions.detached o k hk hd
    refine ⟨h1, ?_⟩
    rw [curWrt_writeback s he]
    exact h2
  · change Function.update s.curAct (s.entries e).obj none o = some e' at he'
    by_cases ho : o = (s.entries e).obj
    · rw [ho, Function.update_self] at he'
      cases he'
    · rw [Function.update_of_ne ho] at he'
      exact h.versions.entry o e' he'

theorem Quiet.synced (h : Quiet s s') (hs : s.Synced t) : s'.Synced t := by
  obtain ⟨h1, h2, h3⟩ := h.clks t
  rw [State.Synced, h.qpClks, h1, h2, h3]
  exact hs

/-- `tvlog_reclaim` of a thread that has the clocks of the QP thread. -/
theorem core_tvlogReclaim (h : Core B s t W []) {t' : ℕ} (hs : s.Synced t') :
    Core B (s.tvlogReclaim B t') t W [] := by
  refine (tvlogReclaim_rule (P := fun s₁ => Core B s₁ t W [] ∧ s₁.Synced t')
    ?_ ?_ ?_ ?_ ?_ ?_ ⟨h, hs⟩).1
  · rintro s₁ w rest k ⟨h₁, hs₁⟩ hw hk hkind
    exact ⟨core_markTombstone h₁ (by rw [hw]; simp) hk hkind,
      (quiet_markTombstone (Quiet.refl s₁) _ _).synced hs₁⟩
  · rintro s₁ w rest ⟨h₁, hs₁⟩ hw
    exact ⟨core_dropSet h₁ hw, hs₁⟩
  · rintro s₁ ⟨h₁, hs₁⟩
    exact ⟨core_rewind h₁ t', hs₁⟩
  · rintro s₁ w rest k ⟨h₁, hs₁⟩ hw hk hlt hn
    exact ⟨core_checkpoint h₁ hs₁ (by rw [hw]; simp) hk hlt hn, hs₁⟩
  · rintro s₁ w rest ⟨h₁, hs₁⟩ hw hlt hn
    exact ⟨core_passSet h₁ hw, hs₁⟩
  · rintro s₁ ⟨h₁, hs₁⟩ -
    exact ⟨h₁.congr {} fun _ => id, hs₁⟩

theorem core_ckptlogReclaim (h : Core B s t W c) (t' wb : ℕ) :
    Core B (s.ckptlogReclaim B t' wb) t W c := by
  refine ckptlogReclaim_rule (P := fun s₁ => Core B s₁ t W c) (fun budget => ?_) h
  refine ckptlogReclaimX_rule (P := fun s₁ => Core B s₁ t W c) ?_ ?_ ?_ ?_ ?_ h
  · exact fun s₁ e rest h₁ _ => h₁.congr {} fun _ => id
  · intro s₁ h₁ _
    unfold State.noteMinCkpt
    split
    · exact h₁
    · exact h₁.congr {} fun _ => id
  · exact fun s₁ e rest h₁ _ _ he _ => (core_writeback h₁ he).congr {} fun _ => id
  · exact fun s₁ e rest h₁ _ _ _ => h₁.congr {} fun _ => id
  · exact fun s₁ h₁ => h₁.congr {} fun _ => id

theorem synced_syncClks (s : State α β) (t : ℕ) : (s.syncClks t).Synced t := by
  simp [State.Synced, State.syncClks]

theorem core_reapLogs (h : Core B s t W []) (t' : ℕ) : Core B (s.reapLogs B t') t W [] := by
  refine (reapLogs_rule (P := fun s₁ => Core B s₁ t W [] ∧ s₁.Synced t') ?_ ?_ ?_ ?_).1
  · exact ⟨h.congr {} fun _ => id, synced_syncClks s t'⟩
  · exact fun s₁ r h₁ => ⟨h₁.1.congr {} fun _ => id, h₁.2⟩
  · exact fun s₁ h₁ _ => ⟨core_tvlogReclaim h₁.1 h₁.2, (quiet_tvlogReclaim s₁ t').synced h₁.2⟩
  · exact fun s₁ h₁ => ⟨core_ckptlogReclaim h₁.1 t' 0,
      (quiet_ckptlogReclaim s₁ t' 0).synced h₁.2⟩

theorem core_reapThread (h : Core B s t W []) (t' : ℕ) : Core B (s.reapThread B t') t W [] := by
  have h' := core_reapLogs h t'
  exact reapThread_rule (P := fun s₁ => Core B s₁ t W []) h' (fun _ => h'.congr {} fun _ => id)
    fun _ => h'.congr {} fun _ => id

/-! ### Rules that hand the invariant on -/

/-- The rule for `tvlog_reclaim` of a thread that has the clocks of the QP thread. -/
theorem Core.tvlogReclaim_rule {P : State α β → Prop} {t' : ℕ} (hc : Core B s t W [])
    (hs : s.Synced t')
    (hmark : ∀ s w k, P s → Core B s t W [] → w ∈ s.tvOld t' → k ∈ w.copies →
      (s.copies k).kind = .free → P (s.markTombstone t' w.wrtClk k))
    (hdrop : ∀ s w rest, P s → s.tvOld t' = w :: rest → P (s.dropSet t' w rest))
    (hrewind : ∀ s, P s → P (s.rewind t'))
    (hck : ∀ s w k, P s → Core B s t W [] → s.Synced t' → w ∈ s.tvNew t' → k ∈ w.copies →
      ltClock B w.wrtClk (s.clks t').qp0 → s.NeedsCkpt B t' k → P (s.checkpoint t' w.wrtClk k))
    (hpass : ∀ s w rest, P s → Core B s t W [] → s.Synced t' → s.tvNew t' = w :: rest →
      ltClock B w.wrtClk (s.clks t').qp0 → (∀ k ∈ w.copies, ¬ s.NeedsCkpt B t' k) →
      P (s.passSet t' w rest))
    (hserved : ∀ s, P s → P (s.tvServed t')) (h : P s) : P (s.tvlogReclaim B t') := by
  refine (System.tvlogReclaim_rule (P := fun s₁ => P s₁ ∧ Core B s₁ t W [] ∧ s₁.Synced t')
    ?_ ?_ ?_ ?_ ?_ ?_ ⟨h, hc, hs⟩).1
  · rintro s₁ w rest k ⟨h₁, hc₁, hs₁⟩ hw hk hkind
    have hw' : w ∈ s₁.tvOld t' := by rw [hw]; exact List.mem_cons_self
    exact ⟨hmark s₁ w k h₁ hc₁ hw' hk hkind, core_markTombstone hc₁ hw' hk hkind,
      (quiet_markTombstone (Quiet.refl s₁) _ _).synced hs₁⟩
  · exact fun s₁ w rest h₁ hw => ⟨hdrop s₁ w rest h₁.1 hw, core_dropSet h₁.2.1 hw, h₁.2.2⟩
  · exact fun s₁ h₁ => ⟨hrewind s₁ h₁.1, core_rewind h₁.2.1 t', h₁.2.2⟩
  · rintro s₁ w rest k ⟨h₁, hc₁, hs₁⟩ hw hk hlt hn
    have hw' : w ∈ s₁.tvNew t' := by rw [hw]; exact List.mem_cons_self
    exact ⟨hck s₁ w k h₁ hc₁ hs₁ hw' hk hlt hn, core_checkpoint hc₁ hs₁ hw' hk hlt hn, hs₁⟩
  · exact fun s₁ w rest h₁ hw hlt hn => ⟨hpass s₁ w rest h₁.1 h₁.2.1 h₁.2.2 hw hlt hn,
      core_passSet h₁.2.1 hw, h₁.2.2⟩
  · exact fun s₁ h₁ _ => ⟨hserved s₁ h₁.1, h₁.2.1.congr {} fun _ => id, h₁.2.2⟩

/-- The rule for the logs of a zombie. -/
theorem Core.reapLogs_rule {P : State α β → Prop} {t' : ℕ} (hc : Core B s t W [])
    (hsync : P (s.syncClks t')) (hforce : ∀ s r, P s → P (s.forceReq t' r))
    (htv : ∀ s, P s → Core B s t W [] → s.Synced t' → P (s.tvlogReclaim B t'))
    (hck : ∀ s, P s → Core B s t W [] → P (s.ckptlogReclaim B t' 0)) : P (s.reapLogs B t') := by
  refine (System.reapLogs_rule (P := fun s₁ => P s₁ ∧ Core B s₁ t W [] ∧ s₁.Synced t')
    ?_ ?_ ?_ ?_).1
  · exact ⟨hsync, hc.congr {} fun _ => id, synced_syncClks s t'⟩
  · exact fun s₁ r h₁ => ⟨hforce s₁ r h₁.1, h₁.2.1.congr {} fun _ => id, h₁.2.2⟩
  · exact fun s₁ h₁ _ => ⟨htv s₁ h₁.1 h₁.2.1 h₁.2.2, core_tvlogReclaim h₁.2.1 h₁.2.2,
      (quiet_tvlogReclaim s₁ t').synced h₁.2.2⟩
  · exact fun s₁ h₁ => ⟨hck s₁ h₁.1 h₁.2.1, core_ckptlogReclaim h₁.2.1 t' 0,
      (quiet_ckptlogReclaim s₁ t' 0).synced h₁.2.2⟩

end TimeStone.System
