/-
The QP thread and the reclamations keep the invariant, when their steps are orderly.

A detection ends when all transactions of earlier rounds have ended, so that the transactions
that run during a reclamation began in its round.  The space of a copy or an entry is given
back only when it was passed in an earlier round, and then none of them has a pointer to it.

* `Invariant.qpDone` — the clock of the round moves on;
* `Invariant.tvVisit`, `Invariant.tvStep`, `Invariant.tvDrop` — `tvlog_reclaim_x`;
* `Invariant.ckVisit`, `Invariant.ckStep`, `Invariant.ckDrop` — `ckptlog_reclaim_x`.
-/
import TimeStone.WriteRuleCommit

namespace TimeStone.WriteRule

open VersionChain (Plain Pc Thread)

variable {B : ℕ} {s s' : State} {t u o k j n e i w W r q v a : ℕ}

/-! ### The QP thread -/

/-- No log is reclaimed outside the reclamation phase. -/
theorem Rounds.idle (h : Rounds s) (hp : ¬ Reclaiming s) (t : ℕ) : s.tv t = .idle ∧ s.ck t = .idle := by
  constructor
  · by_contra ht
    exact hp (h.tv t ht).2.1
  · by_contra ht
    exact hp (h.ck t ht).2.1

/-- Another round or another phase, while no log is reclaimed. -/
theorem Rounds.next (h : Rounds s) (hidle : ∀ t, s.tv t = .idle ∧ s.ck t = .idle)
    (htv : s'.tv = s.tv) (hck : s'.ck = s.ck) (htvr : s'.tvRound = s.tvRound)
    (hckr : s'.ckRound = s.ckRound) (hle : s.round ≤ s'.round) : Rounds s' where
  tv := by
    rw [htv]
    exact fun t ht => absurd (hidle t).1 ht
  ck := by
    rw [hck]
    exact fun t ht => absurd (hidle t).2 ht
  tvLe := fun t => by
    rw [htvr]
    exact Nat.le_trans (h.tvLe t) hle
  ckLe := fun t => by
    rw [hckr]
    exact Nat.le_trans (h.ckLe t) hle

theorem Invariant.threadInit (h : Invariant B s) (hs : step B s (.threadInit t) = some s') :
    Invariant B s' := by
  dsimp only [step] at hs
  split at hs <;> cases hs
  obtain ⟨h1, h2, h3, h4, h5, h6, h7⟩ := h.qp
  obtain ⟨g1, g2, g3, g4⟩ := h.rounds
  refine h.of_same (by constructor <;> rfl)
    rfl ⟨h1, h2, h3, fun u hu => ?_, h5, h6, h7⟩ ⟨fun u hu => ?_, fun u hu => ?_, g3, g4⟩
  · obtain ⟨f1, f2, f3⟩ := h4 u hu
    exact ⟨List.mem_cons_of_mem _ f1, f2, f3⟩
  · obtain ⟨f1, f2, f3⟩ := g1 u hu
    exact ⟨List.mem_cons_of_mem _ f1, f2, f3⟩
  · obtain ⟨f1, f2, f3⟩ := g2 u hu
    exact ⟨List.mem_cons_of_mem _ f1, f2, f3⟩

theorem Invariant.qpClock (h : Invariant B s) (hs : qpClock B s v = some s') : Invariant B s' := by
  unfold WriteRule.qpClock at hs
  obtain ⟨⟨hphase, hread, hle⟩, hs⟩ := Option.ite_none_right_eq_some.mp hs
  cases hs
  obtain ⟨h1, h2, h3, h4, h5, h6, h7⟩ := h.qp
  have hidle := h.rounds.idle (by
    rintro ⟨m, hm⟩
    rcases hphase with hp | hp <;> rw [hp] at hm <;> cases hm)
  unfold correctQpClock at h3
  refine h.of_same (by constructor <;> rfl)
    rfl ⟨Nat.max_lt.mpr ⟨h1, hread.2⟩, Nat.le_max_right .., ?_, fun u hu => ?_,
    fun u hu hb => ?_, nofun, fun hp => absurd rfl hp⟩
    (h.rounds.next hidle rfl rfl rfl rfl (Nat.le_succ _))
  · show s.qp0 ≤ v - B
    omega
  · obtain ⟨f1, f2, f3⟩ := h4 u hu
    exact ⟨f1, Nat.le_succ_of_le f2, f3⟩
  · -- no transaction began in the round that begins
    have := (h4 u hu).2.1
    have hb' : s.began u = s.round + 1 := hb
    omega

theorem Invariant.qpInit (h : Invariant B s) (hs : qpInit s = some s') : Invariant B s' := by
  unfold WriteRule.qpInit at hs
  obtain ⟨hphase, hs⟩ := Option.ite_none_right_eq_some.mp hs
  cases hs
  obtain ⟨h1, h2, h3, h4, h5, h6, h7⟩ := h.qp
  have hidle := h.rounds.idle (by
    rintro ⟨m, hm⟩
    rw [hphase] at hm
    cases hm)
  refine h.of_same (by constructor <;> rfl)
    rfl ⟨h1, h2, h3, h4, h5, fun _ u hu => Or.inl ?_, fun _ hw => absurd rfl hw⟩
    (h.rounds.next hidle rfl rfl rfl rfl (Nat.le_refl _))
  have hu' : s.Active u := hu
  exact List.mem_filter.mpr ⟨(h4 u hu').1, decide_eq_true hu'⟩

theorem Invariant.qpSkip (h : Invariant B s) (hok : Orderly s (.qpSkip t))
    (hs : qpSkip B s t = some s') : Invariant B s' := by
  unfold WriteRule.qpSkip at hs
  obtain ⟨-, hs⟩ := Option.ite_none_right_eq_some.mp hs
  cases hs
  obtain ⟨h1, h2, h3, h4, h5, h6, h7⟩ := h.qp
  refine h.of_same (by constructor <;> rfl) rfl ⟨h1, h2, h3, h4, h5, fun hw u hu => ?_, h7⟩
    ⟨h.rounds.tv, h.rounds.ck, h.rounds.tvLe, h.rounds.ckLe⟩
  by_cases hut : u = t
  · exact Or.inr (hut ▸ hok)
  · rcases h6 hw u hu with h8 | h8
    · exact Or.inl ((List.mem_erase_of_ne hut).mpr h8)
    · exact Or.inr h8

/-- All running transactions began in the round. -/
theorem Invariant.qpDone (h : Invariant B s) (hs : qpDone B s = some s') : Invariant B s' := by
  unfold WriteRule.qpDone at hs
  obtain ⟨⟨hphase, hnil⟩, hs⟩ := Option.ite_none_right_eq_some.mp hs
  cases hs
  obtain ⟨h1, h2, h3, h4, h5, h6, h7⟩ := h.qp
  have hidle := h.rounds.idle (by
    rintro ⟨m, hm⟩
    rw [hphase] at hm
    cases hm)
  have hbegan : ∀ u, s.Active u → s.began u = s.round := by
    intro u hu
    rcases h6 hphase u hu with h8 | h8
    · rw [hnil] at h8
      cases h8
    · exact h8
  have hd := h.detaches
  refine h.of_main (by constructor <;> rfl) h3
    (h.masters.qpDone rfl rfl rfl rfl rfl rfl h3 ?_) ⟨fun t k ht => ?_,
    fun t k ht => ?_, hd.inserted, hd.gone⟩ ⟨h1, h2, Nat.le_refl _, fun u hu => ?_, h5, nofun,
    fun _ _ => hbegan⟩ (h.rounds.next hidle rfl rfl rfl rfl (Nat.le_refl _))
  · show s.qpClk - B ≤ maxVersion
    omega
  · have ht' : s.tv t = .enq k := ht
    rw [(hidle t).1] at ht'
    cases ht'
  · have ht' : s.tv t = .detach k ∨ s.tv t = .detachCas k := ht
    rw [(hidle t).1] at ht'
    rcases ht' with ht' | ht' <;> cases ht'
  · obtain ⟨f1, f2, -⟩ := h4 u hu
    have := h5 u hu (hbegan u hu)
    refine ⟨f1, f2, ?_⟩
    show s.qpClk - B ≤ (s.chain.threads u).localClk
    omega

theorem Invariant.trigger (h : Invariant B s) {m : Mode} (hs : trigger s m = some s') :
    Invariant B s' := by
  unfold WriteRule.trigger at hs
  obtain ⟨hphase, hs⟩ := Option.ite_none_right_eq_some.mp hs
  cases hs
  obtain ⟨h1, h2, h3, h4, h5, -, h7⟩ := h.qp
  have hidle := h.rounds.idle (by
    rintro ⟨m, hm⟩
    rw [hphase] at hm
    cases hm)
  exact h.of_same (by constructor <;> rfl) rfl ⟨h1, h2, h3, h4, h5, nofun,
    fun _ _ => h7 (by rw [hphase]; exact nofun) (by rw [hphase]; exact nofun)⟩
    (h.rounds.next hidle rfl rfl rfl rfl (Nat.le_refl _))

theorem Invariant.barrier (h : Invariant B s) (hs : barrier s = some s') : Invariant B s' := by
  unfold WriteRule.barrier at hs
  split at hs
  · rename_i m hphase
    obtain ⟨hall, hs⟩ := Option.ite_none_right_eq_some.mp hs
    cases hs
    obtain ⟨h1, h2, h3, h4, h5, -, h7⟩ := h.qp
    have hidle : ∀ t, s.tv t = .idle ∧ s.ck t = .idle := by
      intro t
      constructor
      · by_contra ht
        exact ht (hall t (h.rounds.tv t ht).1).1
      · by_contra ht
        exact ht (hall t (h.rounds.ck t ht).1).2
    exact h.of_same (by constructor <;> rfl) rfl ⟨h1, h2, h3, h4, h5, nofun,
      fun _ _ => h7 (by rw [hphase]; exact nofun) (by rw [hphase]; exact nofun)⟩
      (h.rounds.next hidle rfl rfl rfl rfl (Nat.le_refl _))
  · cases hs

/-! ### The log of the copies -/

/-- A step that leaves the versions alone: a thread goes on. -/
theorem TxFrame.of_chain (hc : s'.chain = s.chain) (hdup : s'.dup = s.dup)
    (haborting : s'.aborting = s.aborting) (hcop : s'.copied = s.copied)
    (hfreed : ∀ k, Mine s.chain u k → (s'.slot k).freed = (s.slot k).freed)
    (hsafe : ∀ j, s.Active u → Safe s u j → Safe s' u j)
    (hentry : ∀ e, s.Active u → SafeEntry s u e → SafeEntry s' u e)
    (hver : ∀ k ∈ (s.chain.threads u).held, s.chain.pCopy (s.chain.copies k).obj = none →
      ∀ m, s.ver (s.chain.copies k).obj m = s.curVer (s.chain.copies k).obj →
        (∀ e, m = .entry e → e < s.numEntries) →
          s'.ver (s.chain.copies k).obj m = s'.curVer (s.chain.copies k).obj) :
    TxFrame s s' u where
  thread := by rw [hc]
  dup := by rw [hdup]
  aborting := by rw [haborting]
  safe := hsafe
  entry := hentry
  mine := fun k hk => ⟨by rw [hcop], by rw [hfreed k hk]; exact fun hf => hf⟩
  copy := by
    rw [hc]
    exact fun _ _ => ⟨rfl, rfl, fun _ => rfl⟩
  head := by
    rw [hc]
    exact fun _ _ hp => hp
  obj := by
    rw [hc]
    exact fun _ _ => rfl
  versions := by
    rw [hc]
    exact fun _ _ _ hi hio => ⟨hi, hio, rfl⟩
  ver := hver

theorem Safe.setTv (h : Safe s u j) {pc : TvPc} : Safe (s.setTv t pc) u j :=
  ⟨h.inserted, h.kept, h.passed⟩

theorem setTv_ver {pc : TvPc} (m : Master) : (s.setTv t pc).ver o m = s.ver o m := by
  cases m <;> rfl

theorem sameMasters_setTv {pc : TvPc} : SameMasters s (s.setTv t pc) :=
  ⟨.of_chain rfl rfl fun _ => rfl, rfl, rfl, fun _ => rfl, fun _ => rfl, rfl, fun _ ht => ht⟩

/-- The entries are left alone. -/
theorem Tombs.setTv (h : Tombs B s) {pc : TvPc} (hpc : ∀ k, pc.grave = some k → Grave B s k) :
    Tombs B (s.setTv t pc) := by
  refine h.same rfl (Nat.le_refl _) (fun u k hk => ?_) fun e he ht => Or.inl ⟨he, rfl, ht⟩
  rw [setTv_tv] at hk
  split at hk
  · exact Or.inr (hpc k hk)
  · exact Or.inl hk

/-- A `tvlog_reclaim_x` goes on. -/
theorem Invariant.setTv (h : Invariant B s) {p : TvPc}
    (hpc : p ≠ .idle → t ∈ s.threads ∧ Reclaiming s ∧ s.tvRound t = s.round)
    (henq : ∀ k, p = .enq k → Enqueuing B s t k)
    (hdet : ∀ k, p = .detach k ∨ p = .detachCas k → Detaching B s t k)
    (hgone : ∀ k, s.tv t = .detach k ∨ s.tv t = .detachCas k →
      (p = .detach k ∨ p = .detachCas k) ∨ s.chain.pCopy (s.chain.copies k).obj ≠ some k)
    (hgrave : ∀ k, p.grave = some k → Grave B s k) : Invariant B (s.setTv t p) where
  chain := h.chain
  plain := h.plain
  history := h.history
  masters := h.masters.same sameMasters_setTv
  detaches := h.detaches.setTv henq hdet hgone
  writes := ⟨h.writes.entry, h.writes.store⟩
  qp := h.qp.same (by constructor <;> rfl)
  rounds := by
    refine ⟨fun u hu => ?_, h.rounds.ck, h.rounds.tvLe, h.rounds.ckLe⟩
    rw [setTv_tv] at hu
    split at hu
    · rename_i hut
      exact hut ▸ hpc hu
    · exact h.rounds.tv u hu
  tombs := h.tombs.setTv hgrave
  slots := ⟨h.slots.mem, h.slots.passed, h.slots.behind, h.slots.freed⟩
  entries := ⟨h.entries.passed, h.entries.behind, h.entries.freed, h.entries.log⟩
  tx := fun u => (h.tx u).frame (.of_chain rfl rfl rfl rfl (fun _ _ => rfl) (fun _ _ hj => hj.setTv)
    (fun _ _ he => ⟨he.lt, he.kept, he.passed⟩) fun k _ _ m hm _ => by
      rw [State.curVer, setTv_ver, setTv_ver]
      exact hm)
  flight := h.flight
  fresh := h.fresh

/-- The transactions that run while logs are reclaimed began in the round. -/
theorem Invariant.began_eq (h : Invariant B s) (hp : Reclaiming s) (hu : s.Active u) :
    s.began u = s.round := by
  obtain ⟨m, hm⟩ := hp
  exact h.qp.done (by rw [hm]; exact nofun) (by rw [hm]; exact nofun) u hu

/-- Another record of what was passed. -/
theorem Invariant.setSlot (h : Invariant B s) {x : Slot} (hk : k < s.chain.numCopies)
    (hclk : (s.chain.copies k).wrtClk + B < s.qp0) (haddr : x.addr = (s.slot k).addr)
    (hdetached : x.detached = (s.slot k).detached)
    (hpassed : ∀ r, x.passed = some r → s.chain.pCopy (s.chain.copies k).obj ≠ some k ∧
      r ≤ s.tvRound (s.owner k))
    (hbehind : x.behind = true → ∃ r, x.passed = some r ∧ r < s.tvRound (s.owner k))
    (hfreed : (s.slot k).freed = true → x.freed = true)
    (hfreed' : x.freed = true → (s.chain.copies k).inserted = true →
      ∃ r, x.passed = some r ∧ r < s.tvRound (s.owner k))
    (hsafe : ∀ u, s.Active u → Safe s u k → x.freed = false ∧
      ∀ r, x.passed = some r → s.began u ≤ r) : Invariant B (s.setSlot k x) := by
  have hslot : ∀ j, (s.setSlot k x).slot j = if j = k then x else s.slot j :=
    fun j => Function.update_apply ..
  have hd : ∀ j, ((s.setSlot k x).slot j).detached = (s.slot j).detached := by
    intro j
    rw [hslot]
    split
    · rename_i hjk
      rw [hjk]
      exact hdetached
    · rfl
  have hv : SameVersions s (s.setSlot k x) := .of_chain rfl rfl hd
  have hcom : (s.chain.copies k).wrtClk ≠ maxVersion := by
    have := h.masters.le
    omega
  constructor
  · exact h.chain
  · exact h.plain
  · exact h.history
  · exact h.masters.same ⟨hv, rfl, rfl, fun _ => rfl, fun _ => rfl, rfl, fun _ ht => ht⟩
  · exact h.detaches.same hv (fun _ ht => ht) (fun _ _ => rfl) h.masters rfl
  · exact ⟨h.writes.entry, h.writes.store⟩
  · exact h.qp.same (by constructor <;> rfl)
  · exact ⟨h.rounds.tv, h.rounds.ck, h.rounds.tvLe, h.rounds.ckLe⟩
  · exact h.tombs.keep rfl (Nat.le_refl _) rfl fun _ he ht => ⟨he, rfl, ht⟩
  · constructor
    · intro j hj hf
      rw [hslot] at hf ⊢
      split at hf
      · rename_i hjk
        rw [if_pos hjk, haddr, hjk]
        refine h.slots.mem k hk ?_
        cases hfk : (s.slot k).freed with
        | false => rfl
        | true => rw [hfreed hfk] at hf; cases hf
      · rename_i hjk
        rw [if_neg hjk]
        exact h.slots.mem j hj hf
    · intro j r hr
      rw [hslot] at hr
      split at hr
      · rename_i hjk
        rw [hjk]
        exact ⟨hk, hclk, hpassed r hr⟩
      · exact h.slots.passed j r hr
    · intro j hb
      rw [hslot] at hb ⊢
      split at hb
      · rename_i hjk
        rw [if_pos hjk, hjk]
        exact hbehind hb
      · rename_i hjk
        rw [if_neg hjk]
        exact h.slots.behind j hb
    · intro j hf hi
      rw [hslot] at hf ⊢
      split at hf
      · rename_i hjk
        rw [hjk] at hi
        rw [if_pos hjk, hjk]
        exact hfreed' hf hi
      · rename_i hjk
        rw [if_neg hjk]
        exact h.slots.freed j hf hi
  · exact ⟨h.entries.passed, h.entries.behind, h.entries.freed, h.entries.log⟩
  · intro u
    refine (h.tx u).frame (.of_chain rfl rfl rfl rfl (fun j hj => ?_) (fun j hu hj => ?_)
      (fun _ _ he => ⟨he.lt, he.kept, he.passed⟩) fun i _ _ m hm _ => ?_)
    · rw [hslot, if_neg]
      rintro rfl
      exact hcom (hj.alloc h.chain).2.2
    · by_cases hjk : j = k
      · subst hjk
        obtain ⟨h1, h2⟩ := hsafe u hu hj
        refine ⟨hj.inserted, ?_, ?_⟩
        · rw [hslot, if_pos rfl]
          exact h1
        · rw [hslot, if_pos rfl]
          exact h2
      · refine ⟨hj.inserted, ?_, ?_⟩
        · rw [hslot, if_neg hjk]
          exact hj.kept
        · rw [hslot, if_neg hjk]
          exact hj.passed
    · cases m <;> exact hm
  · intro j hj hw hf
    rw [hslot] at hf
    split at hf
    · rename_i hjk
      exact absurd hw (hjk ▸ hcom)
    · exact h.flight j hj hw hf
  · exact h.fresh

theorem passed_or {x : Option ℕ} (h : x.or (some n) = some r) : x = some r ∨ r = n := by
  cases x with
  | none => exact Or.inr (Option.some_inj.mp h).symm
  | some _ => exact Or.inl h

/-- A reclamation goes past a copy that is not in its chain. -/
theorem Invariant.passSlot (h : Invariant B s) (hk : k < s.chain.numCopies)
    (hclk : (s.chain.copies k).wrtClk + B < s.qp0)
    (hp : s.chain.pCopy (s.chain.copies k).obj ≠ some k) (hr : s.tvRound (s.owner k) = s.round) :
    Invariant B (s.passSlot k) := by
  refine h.setSlot hk hclk rfl rfl ?_ ?_ (fun hf' => hf') ?_ ?_
  · intro r h1
    -- the first round that passed the copy counts
    refine ⟨hp, ?_⟩
    rcases passed_or h1 with h1 | h1
    · exact (h.slots.passed k r h1).2.2.2
    · exact Nat.le_of_eq (h1.trans hr.symm)
  · intro hb
    obtain ⟨r, h1, h2⟩ := h.slots.behind k hb
    refine ⟨r, ?_, h2⟩
    dsimp only
    rw [h1]
    rfl
  · intro hf hins
    obtain ⟨r, h1, h2⟩ := h.slots.freed k hf hins
    refine ⟨r, ?_, h2⟩
    dsimp only
    rw [h1]
    rfl
  · intro u hu hsafe
    refine ⟨hsafe.kept, fun r h1 => ?_⟩
    rcases passed_or h1 with h1 | h1
    · exact hsafe.passed r h1
    · rw [h1]
      exact (h.qp.active u hu).2.1

/-- A copy that was passed in an earlier round is given back. -/
theorem Invariant.dropSlot (h : Invariant B s) (hp : Reclaiming s)
    (hr : s.tvRound (s.owner k) = s.round) (hb : (s.slot k).behind = true) :
    Invariant B (s.giveBack k) := by
  obtain ⟨r, hpass, hlt⟩ := h.slots.behind k hb
  obtain ⟨hk, hclk, h3, h4⟩ := h.slots.passed k r hpass
  refine h.setSlot hk hclk rfl rfl ?_ ?_ (fun _ => rfl) (fun _ _ => ⟨r, hpass, hlt⟩) ?_
  · intro r' hr'
    obtain ⟨-, -, f1, f2⟩ := h.slots.passed k r' hr'
    exact ⟨f1, f2⟩
  · exact fun _ => ⟨r, hpass, hlt⟩
  · -- a transaction that runs now began after the copy was passed
    intro u hu hsafe
    have := hsafe.passed r hpass
    rw [h.began_eq hp hu] at this
    omega

/-- `prev_head_cnt` is set to `head_cnt`. -/
theorem Invariant.tvMark (h : Invariant B s) (hidle : s.tv t = .idle)
    (hlt : s.tvRound t < s.round) : Invariant B { s with
      tvRound := Function.update s.tvRound t s.round
      slot := fun k => if s.owner k = t then
        { s.slot k with behind := (s.slot k).passed.isSome } else s.slot k } := by
  set s₁ : State := { s with
    tvRound := Function.update s.tvRound t s.round
    slot := fun k => if s.owner k = t then
      { s.slot k with behind := (s.slot k).passed.isSome } else s.slot k } with hs₁
  have hself : ∀ j, s₁.slot j = if s.owner j = t then
    { s.slot j with behind := (s.slot j).passed.isSome } else s.slot j := fun _ => rfl
  have hslot : ∀ j, (s₁.slot j).addr = (s.slot j).addr ∧
      (s₁.slot j).detached = (s.slot j).detached ∧ (s₁.slot j).passed = (s.slot j).passed ∧
        (s₁.slot j).freed = (s.slot j).freed := by
    intro j
    rw [hself]
    split <;> exact ⟨rfl, rfl, rfl, rfl⟩
  have hround : ∀ u, s₁.tvRound u = if u = t then s.round else s.tvRound u :=
    fun u => Function.update_apply ..
  have hv : SameVersions s s₁ := .of_chain rfl rfl fun j => (hslot j).2.1
  obtain ⟨h1, h2, h3, h4⟩ := h.slots
  constructor
  · exact h.chain
  · exact h.plain
  · exact h.history
  · exact h.masters.same ⟨hv, rfl, rfl, fun _ => rfl, fun _ => rfl, rfl, fun _ ht => ht⟩
  · exact h.detaches.same hv (fun _ ht => ht) (fun _ _ => rfl) h.masters rfl
  · exact ⟨h.writes.entry, h.writes.store⟩
  · exact h.qp.same (by constructor <;> rfl)
  · refine ⟨fun u hu => ?_, h.rounds.ck, fun u => ?_, h.rounds.ckLe⟩
    · rw [hround, if_neg]
      · exact h.rounds.tv u hu
      · rintro rfl
        exact hu hidle
    · rw [hround]
      split
      · exact Nat.le_refl _
      · exact h.rounds.tvLe u
  · exact h.tombs.keep rfl (Nat.le_refl _) rfl fun _ he ht => ⟨he, rfl, ht⟩
  · constructor
    · intro j hj hf
      rw [(hslot j).2.2.2] at hf
      rw [(hslot j).1]
      exact h1 j hj hf
    · intro j r hr
      rw [(hslot j).2.2.1] at hr
      obtain ⟨f1, f2, f3, f4⟩ := h2 j r hr
      refine ⟨f1, f2, f3, ?_⟩
      rw [hround]
      split
      · exact Nat.le_trans f4 (h.rounds.tvLe _)
      · exact f4
    · intro j hb
      rw [(hslot j).2.2.1, hround]
      rw [hself] at hb
      split at hb
      · -- what was passed before was passed in an earlier round
        rename_i hjt
        obtain ⟨r, hr⟩ := Option.isSome_iff_exists.mp hb
        have hle := (h2 j r hr).2.2.2
        rw [hjt] at hle
        rw [if_pos (show s₁.owner j = t from hjt)]
        exact ⟨r, hr, by omega⟩
      · rename_i hjt
        rw [if_neg (show s₁.owner j ≠ t from hjt)]
        exact h3 j hb
    · intro j hf hi
      rw [(hslot j).2.2.2] at hf
      rw [(hslot j).2.2.1, hround]
      obtain ⟨r, f1, f2⟩ := h4 j hf hi
      refine ⟨r, f1, ?_⟩
      split
      · exact Nat.lt_of_lt_of_le f2 (h.rounds.tvLe _)
      · exact f2
  · exact ⟨h.entries.passed, h.entries.behind, h.entries.freed, h.entries.log⟩
  · intro u
    refine (h.tx u).frame (.of_chain rfl rfl rfl rfl (fun j _ => (hslot j).2.2.2)
      (fun j _ hj => ⟨hj.inserted, ?_, ?_⟩) (fun _ _ he => ⟨he.lt, he.kept, he.passed⟩)
      fun k _ _ m hm _ => ?_)
    · rw [(hslot j).2.2.2]
      exact hj.kept
    · rw [(hslot j).2.2.1]
      exact hj.passed
    · cases m <;> exact hm
  · intro j hj hw hf
    rw [(hslot j).2.2.2] at hf
    exact h.flight j hj hw hf
  · exact h.fresh

theorem Invariant.tvStart (h : Invariant B s) {m : Mode} (hok : Orderly s (.tvStart t m))
    (hs : tvStart s t m = some s') : Invariant B s' := by
  unfold WriteRule.tvStart at hs
  obtain ⟨⟨hmem, hidle⟩, hs⟩ := Option.ite_none_right_eq_some.mp hs
  cases hs
  obtain ⟨hphase, hlt⟩ := hok
  refine (h.tvMark hidle hlt).setTv (t := t) (p := .loop m)
    (fun _ => ⟨hmem, ?_, Function.update_self ..⟩) nofun (by simp) (fun k hk => ?_) nofun
  · rcases hphase with hp | hp
    · exact ⟨_, hp⟩
    · exact ⟨_, hp⟩
  · have hk' : s.tv t = .detach k ∨ s.tv t = .detachCas k := hk
    rw [hidle] at hk'
    rcases hk' with hk' | hk' <;> cases hk'

theorem Invariant.tvDrop (h : Invariant B s) (hs : tvDrop B s t k = some s') :
    Invariant B s' := by
  unfold WriteRule.tvDrop at hs
  split at hs
  · rename_i m hm
    obtain ⟨⟨hin, hb, -⟩, hs⟩ := Option.ite_none_right_eq_some.mp hs
    have hround := h.rounds.tv t (by rw [hm]; exact nofun)
    split at hs <;> cases hs
    · -- a copy that is in front of `prev_head_cnt` was passed, and so it is below the clock
      rename_i hfree
      obtain ⟨r, hpass, -⟩ := h.slots.behind k hb
      refine h.setTv (fun _ => hround) nofun (by simp) (fun j hj => ?_) fun j hj => ?_
      · rw [hm] at hj
        rcases hj with hj | hj <;> cases hj
      · obtain rfl := Option.some_inj.mp hj
        exact ⟨hin.1, hfree.1, (h.slots.passed k r hpass).2.1⟩
    · exact h.dropSlot hround.2.1 (by rw [hin.2.1]; exact hround.2.2) hb
  · cases hs

/-- A write set that is not stamped has a clock only in `ws_unlock_commit`. -/
theorem Invariant.stamp_of_clk (h : Invariant B s) (hk : Mine s.chain u k)
    (hw : (s.chain.wss (s.chain.copies k).ws).wrtClk ≠ maxVersion) :
    ∃ W ks, (s.chain.threads u).pc = .stamp W ks ∧ k ∈ (s.chain.threads u).held := by
  have hp := (h.chain.threads u).pc
  have hstamp : ∃ W ks, (s.chain.threads u).pc = .stamp W ks := by
    by_contra hne
    have hunpub : VersionChain.Unpublished s.chain (s.chain.threads u) := by
      cases hpc : (s.chain.threads u).pc with
      | stamp W ks => exact absurd ⟨W, ks, hpc⟩ hne
      | outside => rw [hpc] at hp; exact hp.2
      | inTx => rw [hpc] at hp; exact hp.2
      | lockCopy => rw [hpc] at hp; exact hp.2
      | chkWrtClk => rw [hpc] at hp; exact hp.2.1
      | chkPending => rw [hpc] at hp; exact hp.2.1
      | chkWait => rw [hpc] at hp; exact hp.2.1
      | tryTest => rw [hpc] at hp; exact hp.2.1
      | tryCas => rw [hpc] at hp; exact hp.2.1
      | recheck => rw [hpc] at hp; exact hp.2.1
      | move => rw [hpc] at hp; exact hp.2
      | moveInit => rw [hpc] at hp; exact hp.2
      | moveCas => rw [hpc] at hp; exact hp.2.1
      | gotClock => rw [hpc] at hp; exact hp.2.1
      | publish => rw [hpc] at hp; exact hp.2.1
    refine hw (hunpub _ ?_)
    rcases hk with hk | hk
    · exact ((h.chain.threads u).holds k hk).ws
    · cases hpc : (s.chain.threads u).pc with
      | tryCas o old j =>
        rw [hpc] at hk hp
        obtain rfl := Option.some_inj.mp hk
        exact hp.2.2.2.2.1
      | recheck o old j =>
        rw [hpc] at hk hp
        obtain rfl := Option.some_inj.mp hk
        exact hp.2.2.2.1.ws
      | _ =>
        rw [hpc] at hk
        cases hk
  obtain ⟨W, ks, hpc⟩ := hstamp
  refine ⟨W, ks, hpc, ?_⟩
  rcases hk with hk | hk
  · exact hk
  · rw [hpc] at hk
    cases hk

/-- A copy whose write set is below the clock has its stamp. -/
theorem Invariant.visited (h : Invariant B s) (hin : s.InTvlog t k)
    (hw : (s.chain.wss (s.chain.copies k).ws).wrtClk ≠ maxVersion)
    (hlt : ltClock B (s.chain.wss (s.chain.copies k).ws).wrtClk s.qp0) :
    (s.chain.copies k).wrtClk ≠ maxVersion ∧
      (s.chain.wss (s.chain.copies k).ws).wrtClk = (s.chain.copies k).wrtClk := by
  obtain ⟨hk, -, hf⟩ := hin
  have hcom : (s.chain.copies k).wrtClk ≠ maxVersion := by
    intro hmax
    obtain ⟨u, hu⟩ := h.flight k hk hmax hf
    obtain ⟨W, ks, hpc, hheld⟩ := h.stamp_of_clk hu hw
    have hp := (h.chain.threads u).pc
    rw [hpc] at hp
    obtain ⟨-, -, -, hpub, hW, -⟩ := hp
    rw [hpub _ ((h.chain.threads u).holds k hheld).ws, ltClock_iff] at hlt
    obtain ⟨hact, -⟩ := (h.tx u).of_busy (by rw [hpc]; exact nofun) (by rw [hpc]; exact nofun)
    have := (h.qp.active u hact).2.2
    omega
  exact ⟨hcom, h.chain.chains.stamp k hk hcom⟩

/-- A committed copy at the borderline is a version. -/
theorem Invariant.inserted_of_borderline (h : Invariant B s) {last : ℕ}
    (hcom : (s.chain.copies k).wrtClk ≠ maxVersion)
    (hb : atBorderline B (s.chain.copies k).wrtClk (s.chain.copies k).wrtClkPrev s.qp0 last) :
    (s.chain.copies k).inserted = true := by
  by_contra hins
  rcases h.plain k (by simpa using hins) with h0 | ⟨u, hu⟩
  · -- a copy that is in no chain has no `wrt_clk_prev`
    unfold atBorderline at hb
    rw [h0, if_neg (by decide)] at hb
    have := gteClock_iff.mp hb.1
    have := ltClock_iff.mp hb.2.1
    omega
  · have hp := (h.chain.threads u).pc
    have hk : k ∈ (s.chain.threads u).held := by
      cases hpc : (s.chain.threads u).pc with
      | moveInit j old ks =>
        rw [hpc] at hu hp
        obtain rfl := Option.some_inj.mp hu
        rw [VersionChain.held_eq (by rw [hpc]; exact nofun)]
        exact hp.1.moving.sub j (List.mem_cons_self ..)
      | moveCas j old ks =>
        rw [hpc] at hu hp
        obtain rfl := Option.some_inj.mp hu
        rw [VersionChain.held_eq (by rw [hpc]; exact nofun)]
        exact hp.1.moving.sub j (List.mem_cons_self ..)
      | _ =>
        rw [hpc] at hu
        cases hu
    exact hcom (held_wrtClk h.chain hk)

theorem Invariant.tvVisit (h : Invariant B s) (hs : tvVisit B s t k = some s') :
    Invariant B s' := by
  unfold WriteRule.tvVisit at hs
  split at hs
  · rename_i m hm
    dsimp only at hs
    obtain ⟨⟨hin, hw, hlt⟩, hs⟩ := Option.ite_none_right_eq_some.mp hs
    obtain ⟨hcom, hws⟩ := h.visited hin hw hlt
    have hround := h.rounds.tv t (by rw [hm]; exact nofun)
    split at hs
    · rename_i hskip
      cases hs
      refine h.passSlot hin.1 ?_ ?_ (by rw [hin.2.1]; exact hround.2.2)
      · rw [← hws]
        exact ltClock_iff.mp hlt
      intro hp
      obtain ⟨h1, -, h3⟩ := h.chain.chains.head _ k hp
      rcases hskip with hfree | hdet | hnot
      · rw [(h.chain.chains.alloc k h1).2] at hfree
        cases hfree
      · have hg := h.detaches.gone k hdet hp
        rw [hin.2.1, hm] at hg
        rcases hg with hg | hg <;> cases hg
      · -- the newest version is at the borderline
        refine hnot ?_
        unfold atBorderline
        rw [if_pos h3, ← hws]
        exact hlt
    · rename_i hskip
      have hb : atBorderline B (s.chain.copies k).wrtClk (s.chain.copies k).wrtClkPrev s.qp0
          s.lastCkpt := by
        by_contra hb
        exact hskip (Or.inr (Or.inr hb))
      have hfresh : (s.slot k).detached = false := by
        cases hd : (s.slot k).detached with
        | false => rfl
        | true => exact absurd (Or.inr (Or.inl hd)) hskip
      cases m with
      | bestEffort => cases hs
      | ckpt =>
        cases hs
        have henq := h.masters.visit h.history h.chain hin.2.1
          (h.inserted_of_borderline hcom hb) hfresh hb
        refine h.setTv (fun _ => hround) ?_ (by simp) ?_ nofun
        · rintro j hj
          cases hj
          exact henq
        · intro j hj
          rw [hm] at hj
          rcases hj with hj | hj <;> cases hj
  · cases hs

theorem put_ver {x : Slot} (m : Master) (hm : ∀ e, m = .entry e → e < s.numEntries) :
    (s.put t k x).ver o m = s.ver o m := by
  cases m with
  | org => rfl
  | entry e => exact congrArg (fun y => some y.ver) (put_old (hm e rfl))

/-- A new entry has not been passed. -/
theorem put_entries_cases {x : Slot} (e : ℕ) : (s.put t k x).entries e = s.entries e ∨
    ((s.put t k x).entries e).passed = none ∧ ((s.put t k x).entries e).behind = false ∧
      ((s.put t k x).entries e).freed = false := by
  rw [put_entries]
  split
  · exact Or.inr ⟨rfl, rfl, rfl⟩
  · exact Or.inl rfl

theorem Entries.put {x : Slot} (h : Entries s) (hw : Writes s) : Entries (s.put t k x) := by
  constructor
  · intro e r hr
    show e < s.numEntries + 1 ∧ (((s.put t k x).entries e).tombstone = false →
      (s.put t k x).npCurAct ((s.put t k x).entries e).obj ≠ .entry e) ∧
        r ≤ s.ckRound ((s.put t k x).entries e).log
    rcases put_entries_cases e with he | ⟨he, -⟩
    · rw [he] at hr ⊢
      obtain ⟨f1, f2, f3⟩ := h.passed e r hr
      refine ⟨Nat.lt_succ_of_lt f1, fun ht => ?_, f3⟩
      rw [put_npCurAct]
      split
      · intro hc
        cases hc
        exact Nat.lt_irrefl _ f1
      · exact f2 ht
    · rw [he] at hr
      cases hr
  · intro e hb
    show ∃ r, ((s.put t k x).entries e).passed = some r ∧
      r < s.ckRound ((s.put t k x).entries e).log
    rcases put_entries_cases e with he | ⟨-, he, -⟩
    · rw [he] at hb ⊢
      exact h.behind e hb
    · rw [he] at hb
      cases hb
  · intro e hf
    rcases put_entries_cases e with he | ⟨-, -, he⟩
    · rw [he] at hf ⊢
      exact h.freed e hf
    · rw [he] at hf
      cases hf
  · intro u e hu
    rw [put_old (hw.entry u e hu)]
    exact h.log u e hu

/-- `_ckptlog_enq`. -/
theorem Invariant.put (h : Invariant B s) {x : Slot} {p : TvPc}
    (haddr : x.addr = (s.slot k).addr) (hpassed : x.passed = (s.slot k).passed)
    (hbehind : x.behind = (s.slot k).behind) (hfreed : x.freed = (s.slot k).freed)
    (hrounds : t ∈ s.threads ∧ Reclaiming s ∧ s.tvRound t = s.round)
    (hmasters : Masters B (s.put t k x)) (hdetaches : Detaches B ((s.put t k x).setTv t p))
    (htombs : Tombs B ((s.put t k x).setTv t p))
    (hother : ∀ u, ∀ i ∈ (s.chain.threads u).held,
      s.chain.pCopy (s.chain.copies i).obj = none →
        (s.chain.copies i).obj ≠ (s.chain.copies k).obj) :
    Invariant B ((s.put t k x).setTv t p) := by
  have hslot : ∀ j, ((s.put t k x).slot j).addr = (s.slot j).addr ∧
      ((s.put t k x).slot j).passed = (s.slot j).passed ∧
      ((s.put t k x).slot j).behind = (s.slot j).behind ∧
        ((s.put t k x).slot j).freed = (s.slot j).freed := by
    intro j
    rw [put_slot]
    split
    · rename_i hjk
      rw [hjk]
      exact ⟨haddr, hpassed, hbehind, hfreed⟩
    · exact ⟨rfl, rfl, rfl, rfl⟩
  have hw : Writes (s.put t k x) := h.writes.put
  have hentries : Entries (s.put t k x) := h.entries.put h.writes
  constructor
  · exact h.chain
  · exact h.plain
  · exact h.history
  · exact hmasters.same sameMasters_setTv
  · exact hdetaches
  · exact ⟨hw.entry, hw.store⟩
  · exact h.qp.same (by constructor <;> rfl)
  · refine ⟨fun u hu => ?_, h.rounds.ck, h.rounds.tvLe, h.rounds.ckLe⟩
    rw [setTv_tv] at hu
    split at hu
    · rename_i hut
      exact hut ▸ hrounds
    · exact h.rounds.tv u hu
  · exact htombs
  · exact h.slots.same rfl rfl (Nat.le_refl _) (fun _ => rfl) rfl hslot
  · exact ⟨hentries.passed, hentries.behind, hentries.freed, hentries.log⟩
  · intro u
    refine (h.tx u).frame (.of_chain rfl rfl rfl rfl (fun j _ => (hslot j).2.2.2)
      (fun j _ hj => ⟨hj.inserted, ?_, ?_⟩) (fun e _ he => ⟨Nat.lt_succ_of_lt he.lt, ?_, ?_⟩)
      fun i hi hp m hm' hlt => ?_)
    · exact (hslot j).2.2.2.trans hj.kept
    · intro r hr
      exact hj.passed r ((hslot j).2.1.symm.trans hr)
    · show ((s.put t k x).entries e).freed = false
      rw [put_old he.lt]
      exact he.kept
    · show ∀ r, ((s.put t k x).entries e).passed = some r → s.began u ≤ r
      rw [put_old he.lt]
      exact he.passed
    · -- no transaction is about to copy a master of the object
      rw [State.curVer, setTv_ver, setTv_ver]
      show (s.put t k x).ver (s.chain.copies i).obj m = (s.put t k x).curVer (s.chain.copies i).obj
      rw [put_ver m hlt, put_curVer h.masters, if_neg (hother u i hi hp)]
      exact hm'
  · intro j hj hw hf
    have hf' : ((s.put t k x).slot j).freed = false := hf
    rw [(hslot j).2.2.2] at hf'
    exact h.flight j hj hw hf'
  · exact h.fresh

/-- An entry that is enqueued is a tombstone only when its copy is the one of `ts_free`. -/
theorem Tombs.put (h : Tombs B s) {x : Slot} {p : TvPc} (hpc : p.grave = none)
    (hk : (s.chain.copies k).kind = .free → Grave B s k) :
    Tombs B ((s.put t k x).setTv t p) := by
  refine h.same rfl (Nat.le_refl _) (fun u j hj => ?_) fun e he ht => ?_
  · rw [setTv_tv] at hj
    split at hj
    · rw [hpc] at hj
      cases hj
    · exact Or.inl hj
  · have ht' : ((s.put t k x).entries e).tombstone = true := ht
    show (_ ∧ ((s.put t k x).entries e).obj = _ ∧ _) ∨ ∃ j, _ = ((s.put t k x).entries e).obj ∧ _
    by_cases hen : e = s.numEntries
    · rw [put_entries, if_pos hen] at ht' ⊢
      exact Or.inr ⟨k, rfl, hk (of_decide_eq_true ht')⟩
    · have hlt : e < s.numEntries := by
        have : e < s.numEntries + 1 := he
        omega
      rw [put_old hlt] at ht' ⊢
      exact Or.inl ⟨hlt, rfl, ht'⟩

/-- `ckptlog_enq`. -/
theorem Invariant.enq (h : Invariant B s) (ht : s.tv t = .enq k) :
    Invariant B ((s.enq t k).setTv t (.detach k)) := by
  have hk := h.detaches.enq t k ht
  have hkind := (h.chain.chains.alloc k hk.inserted).2
  refine h.put rfl rfl rfl rfl (h.rounds.tv t (by rw [ht]; exact nofun))
    (h.masters.put (fun _ => rfl) (Or.inr ⟨hk, rfl⟩)) (h.detaches.enq_step h.masters ht)
    (h.tombs.put rfl fun hf => ?_) fun u i hi hp => ?_
  · rw [hkind] at hf
    cases hf
  · exact (h.not_enq (h.not_tombstoned hi) hp hk).symm

/-! #### Tombstones -/

/-- The state of the freed copy changes. -/
theorem Invariant.mark (h : Invariant B s) (hk : Grave B s k) : Invariant B (s.mark k) := by
  refine h.setSlot hk.lt hk.clk rfl rfl (fun r hr => ?_) (fun hb => h.slots.behind k hb)
    (fun hf => hf) (fun hf hi => h.slots.freed k hf hi) fun u _ hs => ⟨hs.kept, hs.passed⟩
  obtain ⟨-, -, h1, h2⟩ := h.slots.passed k r hr
  exact ⟨h1, h2⟩

/-- An object that a transaction has locked is not the one that was freed. -/
theorem Invariant.ne_of_grave (h : Invariant B s) (hk : Grave B s k)
    (hi : i ∈ (s.chain.threads u).held) : (s.chain.copies i).obj ≠ (s.chain.copies k).obj := by
  have hclk := hk.clk
  have hle := h.masters.le
  have hl := h.tombs.locked k hk.lt (by omega) hk.kind
  intro ho
  rw [← ho, ((h.chain.threads u).holds i hi).lock, Option.some_inj] at hl
  have := held_wrtClk h.chain hi
  rw [hl] at this
  omega

/-- `ckptlog_enq_tombstone`. -/
theorem Invariant.tombEnq (h : Invariant B s) {m : Mode} (ht : s.tv t = .tombEnq m k) :
    Invariant B (((s.append t k).mark k).setTv t (.loop m)) := by
  have hk := h.tombs.call t k (by rw [ht]; rfl)
  have hv : SameVersions s (s.put t k { s.slot k with marked := true }) := by
    refine .of_chain rfl rfl fun j => ?_
    rw [put_slot]
    split
    · rename_i hjk
      rw [hjk]
    · rfl
  have hdet : Detaches B (s.put t k { s.slot k with marked := true }) := by
    refine h.detaches.same hv (fun _ ho => put_tombstoned ho) (fun o ho => ?_) h.masters rfl
    rw [put_curVer h.masters, if_neg]
    rintro rfl
    exact ho (put_tombstoned_self hk.kind)
  refine h.put (x := { s.slot k with marked := true }) rfl rfl rfl rfl
    (h.rounds.tv t (by rw [ht]; exact nofun)) (h.masters.put (fun hd => hd) (Or.inl hk.kind))
    (hdet.setTv nofun (by simp) fun j hj => ?_) (h.tombs.put rfl fun _ => hk)
    fun u i hi _ => h.ne_of_grave hk hi
  have hj' : s.tv t = .detach j ∨ s.tv t = .detachCas j := hj
  rw [ht] at hj'
  rcases hj' with hj' | hj' <;> cases hj'

/-- The newest version is detached. -/
theorem Invariant.detach (h : Invariant B s) (hk : Detaching B s t k)
    (hp : s.chain.pCopy (s.chain.copies k).obj = some k) : Invariant B (s.detach k) := by
  have hcom : (s.chain.copies k).wrtClk ≠ maxVersion := by
    have := h.masters.le
    have := hk.settled.clk
    omega
  obtain ⟨h1, h2, h3, h4⟩ := h.slots
  constructor
  · exact VersionChain.inv_detach h.chain hcom hp
  · exact h.plain
  · exact h.history.detach
  · exact h.masters.detach h.history hk hp
  · exact h.detaches.detach_step
  · exact h.writes.detach
  · exact h.qp.same (by constructor <;> rfl)
  · exact ⟨h.rounds.tv, h.rounds.ck, h.rounds.tvLe, h.rounds.ckLe⟩
  · have hgrave : ∀ {j}, Grave B s j → Grave B (s.detach k) j :=
      fun hj => ⟨hj.lt, hj.kind, hj.clk⟩
    refine ⟨h.tombs.locked, fun u j hj => hgrave (h.tombs.call u j hj), fun e he ht => ?_⟩
    obtain ⟨j, hjo, hj⟩ := h.tombs.grave e he ht
    exact ⟨j, hjo, hgrave hj⟩
  · refine ⟨h1, fun j r hr => ?_, h3, h4⟩
    obtain ⟨f1, f2, f3, f4⟩ := h2 j r hr
    refine ⟨f1, f2, ?_, f4⟩
    show (s.detach k).chain.pCopy (s.chain.copies j).obj ≠ some j
    rw [detach_pCopy]
    split
    · exact nofun
    · exact f3
  · exact ⟨h.entries.passed, h.entries.behind, h.entries.freed, h.entries.log⟩
  · intro u
    refine (h.tx u).frame ⟨rfl, rfl, rfl, fun _ _ hj => ⟨hj.inserted, hj.kept, hj.passed⟩,
      fun _ _ he => ⟨he.lt, he.kept, he.passed⟩, fun _ _ => ⟨rfl, fun hf => hf⟩,
      fun _ _ => ⟨rfl, rfl, fun _ => rfl⟩, fun j _ hj => ?_, fun _ _ => rfl,
      fun _ _ _ hi hio => ⟨hi, hio, rfl⟩, fun j _ _ m hm _ => ?_⟩
    · rw [detach_pCopy]
      split
      · rfl
      · exact hj
    · cases m <;> exact hm
  · exact h.flight
  · exact h.fresh

/-- Other records of what was passed. -/
theorem Invariant.setEntries (h : Invariant B s) {f : ℕ → Entry} {a : ℕ → ℕ}
    (hobj : ∀ e, (f e).obj = (s.entries e).obj) (hver : ∀ e, (f e).ver = (s.entries e).ver)
    (hlog : ∀ e, (f e).log = (s.entries e).log)
    (hrounds : ∀ t, s.ck t ≠ .idle → a t = s.ckRound t) (hle : ∀ t, a t ≤ s.round)
    (htomb : ∀ e, (s.entries e).tombstone = true → (f e).tombstone = true)
    (hgrave : ∀ e < s.numEntries, (f e).tombstone = true → (s.entries e).tombstone = true ∨
      ∃ k, (s.chain.copies k).obj = (s.entries e).obj ∧ Grave B s k)
    (hpassed : ∀ e r, (f e).passed = some r → e < s.numEntries ∧
      ((f e).tombstone = false → s.npCurAct (s.entries e).obj ≠ .entry e) ∧
        r ≤ a (s.entries e).log)
    (hbehind : ∀ e, (f e).behind = true →
      ∃ r, (f e).passed = some r ∧ r < a (s.entries e).log)
    (hfreed : ∀ e, (f e).freed = true → ∃ r, (f e).passed = some r)
    (hsafe : ∀ u e, s.Active u → SafeEntry s u e → (f e).freed = false ∧
      ∀ r, (f e).passed = some r → s.began u ≤ r) :
    Invariant B { s with entries := f, ckRound := a } := by
  have hv : SameMasters s { s with entries := f, ckRound := a } :=
    ⟨.of_chain rfl rfl fun _ => rfl, rfl, rfl, hobj, hver, rfl, htomb⟩
  constructor
  · exact h.chain
  · exact h.plain
  · exact h.history
  · exact h.masters.same hv
  · exact h.detaches.same hv.toSameVersions (fun _ => hv.tombstoned) (fun o _ => hv.curVer o)
      h.masters rfl
  · exact h.writes.same hv rfl
  · exact h.qp.same (by constructor <;> rfl)
  · refine ⟨h.rounds.tv, fun u hu => ?_, h.rounds.tvLe, hle⟩
    dsimp only
    rw [hrounds u hu]
    exact h.rounds.ck u hu
  · refine h.tombs.same rfl (Nat.le_refl _) (fun _ _ hk => Or.inl hk) fun e he ht => ?_
    rcases hgrave e he ht with h1 | ⟨k, h1, h2⟩
    · exact Or.inl ⟨he, hobj e, h1⟩
    · exact Or.inr ⟨k, h1.trans (hobj e).symm, h2⟩
  · exact ⟨h.slots.mem, h.slots.passed, h.slots.behind, h.slots.freed⟩
  · constructor
    · intro e r hr
      dsimp only
      rw [hobj, hlog]
      exact hpassed e r hr
    · intro e hb
      dsimp only
      rw [hlog]
      exact hbehind e hb
    · exact hfreed
    · intro u e hu
      dsimp only
      rw [hlog]
      exact h.entries.log u e hu
  · intro u
    refine (h.tx u).frame (.of_chain rfl rfl rfl rfl (fun _ _ => rfl)
      (fun _ _ hj => ⟨hj.inserted, hj.kept, hj.passed⟩)
      (fun e hu he => ⟨he.lt, (hsafe u e hu he).1, (hsafe u e hu he).2⟩) fun k _ _ m hm _ => ?_)
    rw [hv.curVer, ← hm]
    cases m with
    | org => rfl
    | entry e => exact congrArg some (hver e)
  · exact h.flight
  · exact h.fresh

/-- One entry. -/
theorem Invariant.setEntry (h : Invariant B s) {x : Entry} (hobj : x.obj = (s.entries e).obj)
    (hver : x.ver = (s.entries e).ver) (hlog : x.log = (s.entries e).log)
    (htomb : (s.entries e).tombstone = true → x.tombstone = true)
    (hgrave : x.tombstone = true → (s.entries e).tombstone = true ∨
      ∃ k, (s.chain.copies k).obj = (s.entries e).obj ∧ Grave B s k)
    (hpassed : ∀ r, x.passed = some r → e < s.numEntries ∧
      (x.tombstone = false → s.npCurAct (s.entries e).obj ≠ .entry e) ∧
        r ≤ s.ckRound (s.entries e).log)
    (hbehind : x.behind = true → ∃ r, x.passed = some r ∧ r < s.ckRound (s.entries e).log)
    (hfreed : x.freed = true → ∃ r, x.passed = some r)
    (hsafe : ∀ u, s.Active u → SafeEntry s u e → x.freed = false ∧
      ∀ r, x.passed = some r → s.began u ≤ r) : Invariant B (s.setEntry e x) := by
  have hself : ∀ i, Function.update s.entries e x i = if i = e then x else s.entries i :=
    fun i => Function.update_apply ..
  refine h.setEntries (f := Function.update s.entries e x) (a := s.ckRound) ?_ ?_ ?_
    (fun _ _ => rfl) h.rounds.ckLe ?_ ?_ ?_ ?_ ?_ ?_ <;> intro i
  · rw [hself]
    split
    · rename_i hie
      rw [hie]
      exact hobj
    · rfl
  · rw [hself]
    split
    · rename_i hie
      rw [hie]
      exact hver
    · rfl
  · rw [hself]
    split
    · rename_i hie
      rw [hie]
      exact hlog
    · rfl
  · intro ht
    rw [hself]
    split
    · rename_i hie
      exact htomb (hie ▸ ht)
    · exact ht
  · intro _ ht
    rw [hself] at ht
    split at ht
    · rename_i hie
      rw [hie]
      exact hgrave ht
    · exact Or.inl ht
  · intro r hr
    rw [hself] at hr ⊢
    split at hr
    · rename_i hie
      rw [if_pos hie, hie]
      exact hpassed r hr
    · rename_i hie
      rw [if_neg hie]
      exact h.entries.passed i r hr
  · intro hb
    rw [hself] at hb ⊢
    split at hb
    · rename_i hie
      rw [if_pos hie, hie]
      exact hbehind hb
    · rename_i hie
      rw [if_neg hie]
      exact h.entries.behind i hb
  · intro hf
    rw [hself] at hf ⊢
    split at hf
    · rename_i hie
      rw [if_pos hie]
      exact hfreed hf
    · rename_i hie
      rw [if_neg hie]
      exact h.entries.freed i hf
  · intro i' hu he
    rw [hself]
    split
    · rename_i hie
      rw [hie] at he
      exact hsafe i hu he
    · exact ⟨he.kept, he.passed⟩

/-- The current entry of a freed object is marked. -/
theorem Invariant.tombMark (h : Invariant B s) {m : Mode} (ht : s.tv t = .tombMark m k)
    (hcur : s.npCurAct (s.chain.copies k).obj ≠ .org) :
    Invariant B (((s.markCur k).mark k).setTv t (.loop m)) := by
  have hk := h.tombs.call t k (by rw [ht]; rfl)
  have hround := h.rounds.tv t (by rw [ht]; exact nofun)
  unfold State.markCur
  cases hc : s.npCurAct (s.chain.copies k).obj with
  | org => exact absurd hc hcur
  | entry e =>
    obtain ⟨-, heo⟩ := h.masters.cur _ e hc
    have h₁ : Invariant B (s.setEntry e { s.entries e with tombstone := true }) := by
      refine h.setEntry rfl rfl rfl (fun _ => rfl) (fun _ => Or.inr ⟨k, heo.symm, hk⟩)
        (fun r hr => ?_) (fun hb => h.entries.behind e hb) (fun hf => h.entries.freed e hf)
        fun u _ he => ⟨he.kept, he.passed⟩
      obtain ⟨h1, -, h3⟩ := h.entries.passed e r hr
      exact ⟨h1, nofun, h3⟩
    refine (h₁.mark ⟨hk.lt, hk.kind, hk.clk⟩).setTv (fun _ => hround) nofun (by simp)
      (fun j hj => ?_) nofun
    have hj' : s.tv t = .detach j ∨ s.tv t = .detachCas j := hj
    rw [ht] at hj'
    rcases hj' with hj' | hj' <;> cases hj'

/-- A copy that was detached is passed. -/
theorem Invariant.tvDone (h : Invariant B s) (hk : Detaching B s t k)
    (ht : s.tv t = .detach k ∨ s.tv t = .detachCas k)
    (hp : s.chain.pCopy (s.chain.copies k).obj ≠ some k) :
    Invariant B ((s.passSlot k).setTv t (.loop .ckpt)) := by
  have hround := h.rounds.tv t (by rcases ht with ht | ht <;> rw [ht] <;> exact nofun)
  have h₁ := h.passSlot (h.lt hk.settled.inserted) hk.settled.clk hp
    (by rw [hk.owner]; exact hround.2.2)
  refine h₁.setTv (fun _ => hround) nofun (by simp) (fun j hj => Or.inr ?_) nofun
  have hj' : s.tv t = .detach j ∨ s.tv t = .detachCas j := hj
  have hjk : j = k := by
    rcases ht with ht | ht <;> rw [ht] at hj' <;> rcases hj' with hj' | hj' <;> cases hj' <;> rfl
  rw [hjk]
  exact hp

/-- The test of `np_cur_act` of a freed object. -/
theorem Invariant.tombTest (h : Invariant B s) {p : TvPc} (hk : (s.tv t).grave = some k)
    (hp : p.grave = some k) : Invariant B (s.setTv t p) := by
  have hne : ∀ {q : TvPc}, q.grave = some k → q ≠ .idle ∧ (∀ j, q ≠ .enq j) ∧
      ∀ j, q ≠ .detach j ∧ q ≠ .detachCas j := by
    intro q hq
    cases q <;> cases hq <;> exact ⟨nofun, nofun, fun _ => ⟨nofun, nofun⟩⟩
  obtain ⟨h1, -, h3⟩ := hne hk
  obtain ⟨-, h5, h6⟩ := hne hp
  refine h.setTv (fun _ => h.rounds.tv t h1) (fun j hj => absurd hj (h5 j)) (fun j hj => ?_)
    (fun j hj => ?_) fun j hj => ?_
  · rcases hj with hj | hj
    · exact absurd hj (h6 j).1
    · exact absurd hj (h6 j).2
  · rcases hj with hj | hj
    · exact absurd hj (h3 j).1
    · exact absurd hj (h3 j).2
  · rw [hp, Option.some_inj] at hj
    exact hj ▸ h.tombs.call t k hk

theorem Invariant.tvStep (h : Invariant B s) (hok : Orderly s (.tvStep t))
    (hs : tvStep s t = some s') : Invariant B s' := by
  have hok' : StillEntry s (s.tv t) := hok
  unfold WriteRule.tvStep at hs
  split at hs
  · rename_i m k hk
    split at hs <;> cases hs
    · exact h.tombTest (by rw [hk]; rfl) rfl
    · exact h.tombTest (by rw [hk]; rfl) rfl
  · rename_i m k hk
    cases hs
    exact h.tombEnq hk
  · rename_i m k hk
    rw [hk] at hok'
    cases hs
    exact h.tombMark hk hok'
  · rename_i k hk
    cases hs
    exact h.enq hk
  · rename_i k hk
    have hdet := h.detaches.detach t k (Or.inl hk)
    split at hs
    · rename_i hp
      cases hs
      exact h.tvDone hdet (Or.inl hk) hp
    · cases hs
      refine h.setTv (fun _ => h.rounds.tv t (by rw [hk]; exact nofun)) nofun ?_ ?_ nofun
      · rintro j (hj | hj) <;> cases hj
        exact hdet
      · rintro j (hj | hj) <;> rw [hk] at hj <;> cases hj
        exact Or.inl (Or.inr rfl)
  · rename_i k hk
    have hdet := h.detaches.detach t k (Or.inr hk)
    dsimp only at hs
    split at hs
    · rename_i hp
      cases hs
      refine (h.detach hdet hp).tvDone ⟨hdet.owner, ⟨hdet.settled.inserted, rfl, hdet.settled.clk,
        hdet.settled.detached⟩, hdet.cur⟩ (Or.inr hk) ?_
      show (s.detach k).chain.pCopy (s.chain.copies k).obj ≠ some k
      rw [detach_pCopy, if_pos rfl]
      exact nofun
    · rename_i hp
      cases hs
      exact h.tvDone hdet (Or.inr hk) hp
  · cases hs

theorem Invariant.tvEnd (h : Invariant B s) (hs : tvEnd s t = some s') : Invariant B s' := by
  unfold WriteRule.tvEnd at hs
  split at hs
  · rename_i m hm
    cases hs
    refine h.setTv (fun hp => absurd rfl hp) nofun (by simp) (fun k hk => ?_) nofun
    rw [hm] at hk
    rcases hk with hk | hk <;> cases hk
  · cases hs

/-! ### The log of the checkpoints -/

/-- A `ckptlog_reclaim_x` goes on. -/
theorem Invariant.setCk (h : Invariant B s) {p : CkPc}
    (hpc : p ≠ .idle → t ∈ s.threads ∧ Reclaiming s ∧ s.ckRound t = s.round)
    (hentry : ∀ e, p = .writeback e ∨ p = .store e → e < s.numEntries ∧ (s.entries e).log = t)
    (hstore : ∀ e, p = .store e → s.npCurAct (s.entries e).obj = .entry e →
      s.npOrgAct (s.entries e).obj = some (s.entries e).ver) : Invariant B (s.setCk t p) where
  chain := h.chain
  plain := h.plain
  history := h.history
  masters := h.masters.same
    ⟨.of_chain rfl rfl fun _ => rfl, rfl, rfl, fun _ => rfl, fun _ => rfl, rfl, fun _ ht => ht⟩
  detaches := h.detaches.same (.of_chain rfl rfl fun _ => rfl) (fun _ ht => ht) (fun _ _ => rfl)
    h.masters rfl
  writes := h.writes.setCk (fun e he => (hentry e he).1) hstore
  qp := h.qp.same (by constructor <;> rfl)
  rounds := by
    refine ⟨h.rounds.tv, fun u hu => ?_, h.rounds.tvLe, h.rounds.ckLe⟩
    rw [setCk_ck] at hu
    split at hu
    · rename_i hut
      exact hut ▸ hpc hu
    · exact h.rounds.ck u hu
  tombs := h.tombs.keep rfl (Nat.le_refl _) rfl fun _ he ht => ⟨he, rfl, ht⟩
  slots := ⟨h.slots.mem, h.slots.passed, h.slots.behind, h.slots.freed⟩
  entries := by
    refine ⟨h.entries.passed, h.entries.behind, h.entries.freed, fun u e hu => ?_⟩
    rw [setCk_ck] at hu
    split at hu
    · rename_i hut
      exact (hentry e hu).2.trans hut.symm
    · exact h.entries.log u e hu
  tx := fun u => (h.tx u).frame (.of_chain rfl rfl rfl rfl (fun _ _ => rfl)
    (fun _ _ hj => ⟨hj.inserted, hj.kept, hj.passed⟩) (fun _ _ he => ⟨he.lt, he.kept, he.passed⟩)
    fun _ _ _ m hm _ => by cases m <;> exact hm)
  flight := h.flight
  fresh := h.fresh

theorem Invariant.passEntry (h : Invariant B s) (he : e < s.numEntries)
    (hcur : (s.entries e).tombstone = false → s.npCurAct (s.entries e).obj ≠ .entry e)
    (hr : s.ckRound (s.entries e).log = s.round) : Invariant B (s.passEntry e) := by
  refine h.setEntry rfl rfl rfl (fun ht => ht) Or.inl ?_ ?_ ?_ ?_
  · intro r h1
    refine ⟨he, hcur, ?_⟩
    rcases passed_or h1 with h1 | h1
    · exact (h.entries.passed e r h1).2.2
    · exact Nat.le_of_eq (h1.trans hr.symm)
  · intro hb
    obtain ⟨r, h1, h2⟩ := h.entries.behind e hb
    refine ⟨r, ?_, h2⟩
    dsimp only
    rw [h1]
    rfl
  · intro _
    dsimp only
    cases (s.entries e).passed with
    | none => exact ⟨s.round, rfl⟩
    | some r => exact ⟨r, rfl⟩
  · intro u hu hsafe
    refine ⟨hsafe.kept, fun r h1 => ?_⟩
    rcases passed_or h1 with h1 | h1
    · exact hsafe.passed r h1
    · rw [h1]
      exact (h.qp.active u hu).2.1

theorem Invariant.ckStart (h : Invariant B s) (hok : Orderly s (.ckStart t))
    (hs : ckStart s t = some s') : Invariant B s' := by
  unfold WriteRule.ckStart at hs
  obtain ⟨⟨hmem, hidle⟩, hs⟩ := Option.ite_none_right_eq_some.mp hs
  cases hs
  obtain ⟨hphase, hlt⟩ := hok
  set f : ℕ → Entry := fun e => if (s.entries e).log = t then
    { s.entries e with behind := (s.entries e).passed.isSome } else s.entries e with hf
  have hself : ∀ e, f e = if (s.entries e).log = t then
    { s.entries e with behind := (s.entries e).passed.isSome } else s.entries e := fun _ => rfl
  have hfields : ∀ e, (f e).obj = (s.entries e).obj ∧ (f e).ver = (s.entries e).ver ∧
      (f e).log = (s.entries e).log ∧ (f e).passed = (s.entries e).passed ∧
        (f e).freed = (s.entries e).freed ∧ (f e).tombstone = (s.entries e).tombstone := by
    intro e
    rw [hself]
    split <;> exact ⟨rfl, rfl, rfl, rfl, rfl, rfl⟩
  have hround : ∀ u, Function.update s.ckRound t s.round u =
      if u = t then s.round else s.ckRound u := fun u => Function.update_apply ..
  have h₁ : Invariant B { s with entries := f, ckRound := Function.update s.ckRound t s.round } := by
    refine h.setEntries (fun e => (hfields e).1) (fun e => (hfields e).2.1)
      (fun e => (hfields e).2.2.1) ?_ ?_ (fun e ht => (hfields e).2.2.2.2.2.trans ht)
      (fun e _ ht => Or.inl ((hfields e).2.2.2.2.2.symm.trans ht)) ?_ ?_ ?_ ?_
    · intro u hu
      rw [hround, if_neg]
      rintro rfl
      exact hu hidle
    · intro u
      rw [hround]
      split
      · exact Nat.le_refl _
      · exact h.rounds.ckLe u
    · intro e r hr
      rw [(hfields e).2.2.2.1] at hr
      rw [(hfields e).2.2.2.2.2]
      obtain ⟨f1, f2, f3⟩ := h.entries.passed e r hr
      refine ⟨f1, f2, ?_⟩
      rw [hround]
      split
      · exact Nat.le_trans f3 (h.rounds.ckLe _)
      · exact f3
    · intro e hb
      rw [(hfields e).2.2.2.1, hround]
      rw [hself] at hb
      split at hb
      · rename_i het
        obtain ⟨r, hr⟩ := Option.isSome_iff_exists.mp hb
        have hle := (h.entries.passed e r hr).2.2
        rw [het] at hle
        rw [if_pos het]
        exact ⟨r, hr, by omega⟩
      · rename_i het
        rw [if_neg het]
        exact h.entries.behind e hb
    · intro e hf
      rw [(hfields e).2.2.2.2.1] at hf
      rw [(hfields e).2.2.2.1]
      exact h.entries.freed e hf
    · intro u e _ he
      rw [(hfields e).2.2.2.1, (hfields e).2.2.2.2.1]
      exact ⟨he.kept, he.passed⟩
  refine h₁.setCk (t := t) (p := .loop) (fun _ => ⟨hmem, ?_, Function.update_self ..⟩)
    (by simp) nofun
  rcases hphase with hp | hp
  · exact ⟨_, hp⟩
  · exact ⟨_, hp⟩

theorem Invariant.ckDrop (h : Invariant B s) (hs : ckDrop s t e = some s') : Invariant B s' := by
  unfold WriteRule.ckDrop at hs
  obtain ⟨⟨hloop, hin, hb⟩, hs⟩ := Option.ite_none_right_eq_some.mp hs
  cases hs
  obtain ⟨-, h1, h2⟩ := h.rounds.ck t (by rw [hloop]; exact nofun)
  obtain ⟨r, hpass, hlt⟩ := h.entries.behind e hb
  rw [hin.2.1, h2] at hlt
  refine h.setEntry rfl rfl rfl (fun ht => ht) Or.inl (fun r' hr' => h.entries.passed e r' hr')
    (fun hb' => h.entries.behind e hb') (fun _ => ⟨r, hpass⟩) fun u hu hsafe => ?_
  -- a transaction that runs now began after the entry was passed
  have := hsafe.passed r hpass
  rw [h.began_eq h1 hu] at this
  omega

theorem Invariant.ckVisit (h : Invariant B s) (hs : ckVisit B s t e = some s') :
    Invariant B s' := by
  unfold WriteRule.ckVisit at hs
  obtain ⟨⟨hloop, hin, -⟩, hs⟩ := Option.ite_none_right_eq_some.mp hs
  have hround := h.rounds.ck t (by rw [hloop]; exact nofun)
  split at hs <;> cases hs
  · refine h.setCk (fun _ => hround) ?_ nofun
    rintro e' (he | he) <;> cases he
    exact ⟨hin.1, hin.2.1⟩
  · rename_i hcur
    exact h.passEntry hin.1 (fun ht hc => hcur ⟨hc, ht⟩) (by rw [hin.2.1]; exact hround.2.2)

/-- The write to the original master, while the entry is current. -/
theorem Invariant.writeback (h : Invariant B s) (he : e < s.numEntries)
    (hcur : s.npCurAct (s.entries e).obj = .entry e) : Invariant B (s.writeback e) := by
  have hv : SameVersions s (s.writeback e) := .of_chain rfl rfl fun _ => rfl
  constructor
  · exact h.chain
  · exact h.plain
  · exact h.history
  · exact h.masters.writeback he hcur
  · exact h.detaches.same hv (fun _ ht => ht) (fun _ _ => writeback_curVer hcur) h.masters rfl
  · exact h.writes.writeback hcur
  · exact h.qp.same (by constructor <;> rfl)
  · exact ⟨h.rounds.tv, h.rounds.ck, h.rounds.tvLe, h.rounds.ckLe⟩
  · exact h.tombs.keep rfl (Nat.le_refl _) rfl fun _ he ht => ⟨he, rfl, ht⟩
  · exact ⟨h.slots.mem, h.slots.passed, h.slots.behind, h.slots.freed⟩
  · exact ⟨h.entries.passed, h.entries.behind, h.entries.freed, h.entries.log⟩
  · intro u
    refine (h.tx u).frame (.of_chain rfl rfl rfl rfl (fun _ _ => rfl)
      (fun _ _ hj => ⟨hj.inserted, hj.kept, hj.passed⟩) (fun _ _ hj => ⟨hj.lt, hj.kept, hj.passed⟩)
      fun k _ _ m hm _ => ?_)
    rw [writeback_curVer hcur, ← hm]
    cases m with
    | entry e' => rfl
    | org =>
      -- a memcpy from the original master of the object copies the same version as before
      show (s.writeback e).npOrgAct (s.chain.copies k).obj = s.npOrgAct (s.chain.copies k).obj
      rw [writeback_npOrgAct]
      split
      · rename_i ho
        have hm' : s.npOrgAct (s.chain.copies k).obj = s.curVer (s.chain.copies k).obj := hm
        rw [hm', ho, State.curVer, hcur]
        rfl
      · rfl
  · exact h.flight
  · exact h.fresh

/-- The store of `np_cur_act` after it. -/
theorem Invariant.store (h : Invariant B s) (hcur : s.npCurAct (s.entries e).obj = .entry e)
    (horg : s.npOrgAct (s.entries e).obj = some (s.entries e).ver) :
    Invariant B (s.setCurAct (s.entries e).obj .org) := by
  have hv : SameVersions s (s.setCurAct (s.entries e).obj .org) := .of_chain rfl rfl fun _ => rfl
  constructor
  · exact h.chain
  · exact h.plain
  · exact h.history
  · exact h.masters.store hcur horg
  · exact h.detaches.same hv (fun _ ht => ht) (fun _ _ => store_curVer hcur horg) h.masters rfl
  · exact h.writes.store_org
  · exact h.qp.same (by constructor <;> rfl)
  · exact ⟨h.rounds.tv, h.rounds.ck, h.rounds.tvLe, h.rounds.ckLe⟩
  · exact h.tombs.keep rfl (Nat.le_refl _) rfl fun _ he ht => ⟨he, rfl, ht⟩
  · exact ⟨h.slots.mem, h.slots.passed, h.slots.behind, h.slots.freed⟩
  · refine ⟨fun e' r hr => ?_, h.entries.behind, h.entries.freed, h.entries.log⟩
    obtain ⟨f1, f2, f3⟩ := h.entries.passed e' r hr
    refine ⟨f1, fun ht => ?_, f3⟩
    show Function.update s.npCurAct (s.entries e).obj .org (s.entries e').obj ≠ .entry e'
    rw [Function.update_apply]
    split
    · exact nofun
    · exact f2 ht
  · intro u
    refine (h.tx u).frame (.of_chain rfl rfl rfl rfl (fun _ _ => rfl)
      (fun _ _ hj => ⟨hj.inserted, hj.kept, hj.passed⟩) (fun _ _ hj => ⟨hj.lt, hj.kept, hj.passed⟩)
      fun k _ _ m hm _ => ?_)
    rw [store_curVer hcur horg, ← hm]
    cases m <;> rfl
  · exact h.flight
  · exact h.fresh

theorem Invariant.ckStep (h : Invariant B s) (hok : Orderly s (.ckStep t))
    (hs : ckStep s t = some s') : Invariant B s' := by
  have hok' : StillCurrent s (s.ck t) := hok
  unfold WriteRule.ckStep at hs
  split at hs
  · rename_i e he
    cases hs
    have hround := h.rounds.ck t (by rw [he]; exact nofun)
    rw [he] at hok'
    have hlt := h.writes.entry t e (Or.inl he)
    refine (h.writeback hlt hok').setCk (t := t) (p := .store e) (fun _ => hround) ?_ ?_
    · rintro e' (he' | he') <;> cases he'
      exact ⟨hlt, h.entries.log t e (Or.inl he)⟩
    · rintro e' he' _
      cases he'
      exact writeback_npOrgAct.trans (if_pos rfl)
  · rename_i e he
    cases hs
    have hround := h.rounds.ck t (by rw [he]; exact nofun)
    rw [he] at hok'
    have h₁ := h.store hok' (h.writes.store t e he hok')
    have h₂ := h₁.passEntry (e := e) (h.writes.entry t e (Or.inr he)) (fun _ => by
      show Function.update s.npCurAct (s.entries e).obj .org (s.entries e).obj ≠ .entry e
      rw [Function.update_self]
      exact nofun) (by
      show s.ckRound (s.entries e).log = s.round
      rw [h.entries.log t e (Or.inr he)]
      exact hround.2.2)
    exact h₂.setCk (t := t) (p := .loop) (fun _ => hround) (by simp) nofun
  · cases hs

theorem Invariant.ckEnd (h : Invariant B s) (hs : ckEnd s t = some s') : Invariant B s' := by
  unfold WriteRule.ckEnd at hs
  obtain ⟨-, hs⟩ := Option.ite_none_right_eq_some.mp hs
  cases hs
  exact h.setCk (fun hp => absurd rfl hp) (by simp) nofun

end TimeStone.WriteRule
