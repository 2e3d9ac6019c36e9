/-
The steps of the QP thread and of the reclamations, for the readers.

A reclamation passes a version when a newer one is below the clock, when its checkpoint is
published, or when its own checkpoint has taken it.  A checkpoint is published when every log
was reclaimed, and then no version below its clock is left out (`below_of_passed`).

* `frame_still` — what the steps leave to a transaction that do not touch the masters;
* `Checkpoints.next` — the steps but for those of the transactions and the barrier;
* `next_step` — all steps but for those of the transactions.
-/
import TimeStone.SnapshotRead
import TimeStone.SnapshotReadCkpt

namespace TimeStone.SnapshotRead

open WriteRule (Master Mode Safe SafeEntry Reclaiming Masters Enqueuing Detaching)

variable {B : ℕ} {s s' : WriteRule.State} {t u o k j n e v a r : ℕ}

/-- What the steps of the QP thread and of the reclamations do, except for the barrier. -/
structure Goes (B : ℕ) (s s' : WriteRule.State) : Prop where
  same : SameThreads s s'
  frame : Frame B s s'
  threads : ∀ u ∈ s.threads, u ∈ s'.threads
  qp0 : s.qp0 ≤ s'.qp0
  lastCkpt : s'.lastCkpt = s.lastCkpt
  ckpt : s.phase = .reclaim .ckpt → s'.phase = .reclaim .ckpt ∧ s'.round = s.round
  gap : s'.phase = .detected ∨ Reclaiming s' → s'.qp2 + B < s'.qp0
  mode : ∀ t m, mode (s'.tv t) = some m → s'.phase = .reclaim m
  busy : ∀ t k, s'.tv t = .enq k ∨ s'.tv t = .detach k ∨ s'.tv t = .detachCas k →
    s'.phase = .reclaim .ckpt
  detached : ∀ k, (s.chain.copies k).inserted = true → (s'.slot k).detached = true →
    (s.slot k).detached = true ∨ Taken B s' k
  passed : ∀ k r, (s.chain.copies k).inserted = true → (s'.slot k).passed = some r →
    (s.slot k).passed = some r ∨ Passed B s' k r
  writes : ∀ t e, s'.ck t = .writeback e ∨ s'.ck t = .store e →
    (s'.entries e).ckptSClk ≤ s'.qp2 + B

/-- A step in which no reclamation is triggered: what was passed for a checkpoint stays so. -/
structure Stays (B : ℕ) (s s' : WriteRule.State) : Prop extends Goes B s s' where
  kept : ∀ k, (s.slot k).passed ≠ none → (s'.slot k).passed ≠ none
  round : s'.phase = .reclaim .ckpt → s.phase = .reclaim .ckpt ∧ s'.qp0 = s.qp0

theorem Goes.stays (hg : Goes B s s') (hslot : s'.slot = s.slot)
    (hround : s'.phase = .reclaim .ckpt → s.phase = .reclaim .ckpt ∧ s'.qp0 = s.qp0) :
    Stays B s s' where
  toGoes := hg
  kept := by
    rw [hslot]
    exact fun _ hk => hk
  round := hround

section

variable (hm : SameThreads s s') (hf : Frame B s s') (hi : WriteRule.Invariant B s)
  (hqp0 : s.qp0 ≤ s'.qp0) (hlast : s.lastCkpt ≤ s'.lastCkpt)

include hm hf hi hqp0 hlast

theorem Taken.next (hd : Taken B s k) (hk : (s.chain.copies k).inserted = true)
    (hph : s.phase = .reclaim .ckpt →
      s'.phase = .reclaim .ckpt ∨ (s.chain.copies k).wrtClk + B < s'.lastCkpt) :
    Taken B s' k := by
  have hclk := hd.clk
  constructor
  · rw [hm.copies]
    omega
  · rw [hm.copies]
    rcases hd.done with h1 | h1
    · exact Or.inl (by omega)
    · exact (hph h1).symm
  · exact hd.cur.frame hf hi.masters hk

theorem Passed.next (hp : Passed B s k r) (hk : (s.chain.copies k).inserted = true)
    (hph : s.phase = .reclaim .ckpt → s'.phase = .reclaim .ckpt ∧ s'.round = s.round ∨
      ((s.chain.copies k).wrtClk + B < s.qp0 → (s.chain.copies k).wrtClk + B < s'.lastCkpt)) :
    Passed B s' k r := by
  unfold Passed
  rw [hm.copies]
  rcases hp with h1 | ⟨n, h1, h2, h3, h4⟩ | ⟨h1, h2, h3⟩
  · exact Or.inl (by omega)
  · refine Or.inr (Or.inl ⟨n, ?_, ?_, ?_, ?_⟩) <;> rw [hm.copies]
    · exact h1
    · exact h2
    · exact h3
    · omega
  · rcases hph h1 with ⟨h4, h5⟩ | h4
    · exact Or.inr (Or.inr ⟨h4, h2.trans h5.symm,
        h3.next hm hf hi hqp0 hlast hk fun _ => Or.inl h4⟩)
    · exact Or.inl (h4 h3.clk)

end

theorem Checkpoints.next (h : Checkpoints B s) (hi : WriteRule.Invariant B s) (hg : Goes B s s') :
    Checkpoints B s' := by
  obtain ⟨hm, hf, hthr, hqp0, hlast, hph, hgap, hmode, hbusy, hdet, hpass, hwrites⟩ := hg
  have hle := Nat.le_of_eq hlast.symm
  constructor
  · exact hf.moves.announced h.announced
  · exact hf.moves.prevs h.prevs
  · intro u hu
    have hsame := hm.active hu
    rw [hsame.localClk]
    exact Nat.le_trans (h.clk u hsame.active) hf.lastClk
  · unfold WriteRule.State.owner
    rw [hm.copies, hm.wss]
    exact fun k hk => hthr _ (h.owner k hk)
  · rw [hlast]
    exact Nat.le_trans h.le hqp0
  · exact hgap
  · exact hmode
  · exact hbusy
  · intro k hk hd
    rw [hm.copies] at hk
    rcases hdet k hk hd with h1 | h1
    · exact (h.detached k hk h1).next hm hf hi hqp0 hle hk fun hp => Or.inl (hph hp).1
    · exact h1
  · intro k r hk hr
    rw [hm.copies] at hk
    rcases hpass k r hk hr with h1 | h1
    · exact (h.passed k r hk h1).next hm hf hi hqp0 hle hk fun hp => Or.inl (hph hp)
    · exact h1
  · intro k hk hlt
    rw [hm.copies] at hk hlt
    rw [hlast] at hlt
    exact (h.below k hk hlt).frame hf hi.masters hk
  · intro k j hk hp hj hjo hlt
    rw [hm.copies] at hk hp hj hjo hlt
    exact (h.bottom k j hk hp hj hjo hlt).frame hf hi.masters hj
  · exact hwrites

/-- What is stored in an entry stays as it is; it may become a tombstone. -/
structure SameEntry (x' x : WriteRule.Entry) : Prop where
  obj : x'.obj = x.obj
  ver : x'.ver = x.ver
  ckptSClk : x'.ckptSClk = x.ckptSClk
  tombstone : x.tombstone = true → x'.tombstone = true

theorem SameEntry.refl {x : WriteRule.Entry} : SameEntry x x := ⟨rfl, rfl, rfl, id⟩

/-- A step that does not touch the masters. -/
theorem frame_still (hm : SameThreads s s') (hclk : s.lastClk ≤ s'.lastClk)
    (hlast : s.lastCkpt ≤ s'.lastCkpt) (hcur : s'.npCurAct = s.npCurAct)
    (horg : s'.npOrgAct = s.npOrgAct) (hnum : s'.numEntries = s.numEntries)
    (hentries : ∀ e, SameEntry (s'.entries e) (s.entries e))
    (hsafe : ∀ u k, s.Active u → Safe s u k → (s'.slot k).freed = false ∧
      ∀ r, (s'.slot k).passed = some r → s.began u ≤ r)
    (hentry : ∀ u e, s.Active u → SafeEntry s u e → (s'.entries e).freed = false ∧
      ∀ r, (s'.entries e).passed = some r → s.began u ≤ r)
    (hqp : ∀ u c, s.Active u → s.qp2 + B < c →
      (s.began u = s.round → s.phase ≠ .clock ∧ s.phase ≠ .wait) →
      s'.qp2 + B < c ∧ (s.began u = s'.round → s'.phase ≠ .clock ∧ s'.phase ≠ .wait)) :
    Frame B s s' := by
  refine frame_of hm hclk hlast hsafe (fun u e hu he => ?_) (fun o ho => ?_)
    (fun o n _ hn => ⟨n, ?_, Nat.le_refl _⟩) fun u o _ hu ho => ⟨?_, by rw [horg]⟩
  · obtain ⟨h1, h2⟩ := hentry u e hu he
    exact ⟨by rw [hnum]; exact he.lt, h1, h2, (hentries e).ver⟩
  · obtain ⟨e, he, heo, ht⟩ := ho
    exact ⟨e, by rw [hnum]; exact he, (hentries e).obj.trans heo, (hentries e).tombstone ht⟩
  · rw [← hn, WriteRule.State.curVer, WriteRule.State.curVer, hcur]
    cases s.npCurAct o with
    | org => exact congrFun horg o
    | entry e => exact congrArg some (hentries e).ver
  · rcases ho with h1 | ⟨e, h1, h2, h3⟩
    · exact Or.inl (by rw [hcur]; exact h1)
    · obtain ⟨h4, h5⟩ := hqp u _ hu h2 h3
      refine Or.inr ⟨e, by rw [hcur]; exact h1, ?_, ?_⟩
      · rw [(hentries e).ckptSClk]
        exact h4
      · rw [hm.began]
        exact h5

/-! ### The QP thread -/

section

variable (h : Checkpoints B s) (hi : WriteRule.Invariant B s)

include h hi

omit h in
/-- A step of the QP thread that touches no log. -/
theorem goes_qp (hm : WriteRule.SameMain s s') (hidle : ¬ Reclaiming s)
    (hclk : s.lastClk ≤ s'.lastClk) (hthr : ∀ u ∈ s.threads, u ∈ s'.threads)
    (hqp0 : s.qp0 ≤ s'.qp0) (hlast : s'.lastCkpt = s.lastCkpt)
    (hgap : s'.phase = .detected ∨ Reclaiming s' → s'.qp2 + B < s'.qp0)
    (hqp : ∀ u c, s.Active u → s.qp2 + B < c →
      (s.began u = s.round → s.phase ≠ .clock ∧ s.phase ≠ .wait) →
      s'.qp2 + B < c ∧ (s.began u = s'.round → s'.phase ≠ .clock ∧ s'.phase ≠ .wait)) :
    Goes B s s' := by
  have hrounds := hi.rounds.idle hidle
  have hsame : SameThreads s s' := by
    constructor
    · rw [hm.chain]
    · rw [hm.chain]
    · rw [hm.chain]
    · exact hm.aborting
    · exact hm.began
  constructor
  · exact hsame
  · refine frame_still hsame hclk (Nat.le_of_eq hlast.symm) hm.npCurAct hm.npOrgAct hm.numEntries
      (fun e => ?_) (fun u k _ hk => ?_) (fun u e _ he => ?_) hqp
    · rw [hm.entries]
      exact .refl
    · rw [hm.slot]
      exact ⟨hk.kept, hk.passed⟩
    · rw [hm.entries]
      exact ⟨he.kept, he.passed⟩
  · exact hthr
  · exact hqp0
  · exact hlast
  · exact fun hp => absurd ⟨_, hp⟩ hidle
  · exact hgap
  · intro t m ht
    rw [hm.tv, (hrounds t).1] at ht
    cases ht
  · intro t k ht
    rw [hm.tv, (hrounds t).1] at ht
    simp at ht
  · intro k _ hd
    rw [hm.slot] at hd
    exact Or.inl hd
  · intro k r _ hr
    rw [hm.slot] at hr
    exact Or.inl hr
  · intro t e ht
    rw [hm.ck, (hrounds t).2] at ht
    simp at ht

omit hi in
theorem stays_threadInit (hs : WriteRule.step B s (.threadInit t) = some s') : Stays B s s' := by
  dsimp only [WriteRule.step] at hs
  split at hs <;> cases hs
  have hsame : SameThreads s { s with threads := t :: s.threads } := by constructor <;> rfl
  have hg : Goes B s { s with threads := t :: s.threads } :=
    ⟨hsame, frame_still hsame (Nat.le_refl _) (Nat.le_refl _) rfl rfl rfl
    (fun _ => .refl) (fun _ _ _ hk => ⟨hk.kept, hk.passed⟩)
    (fun _ _ _ he => ⟨he.kept, he.passed⟩) fun _ _ _ h1 h2 => ⟨h1, h2⟩,
    fun _ hu => List.mem_cons_of_mem _ hu, Nat.le_refl _, rfl, fun hp => ⟨hp, rfl⟩, h.gap, h.mode,
    h.busy, fun _ _ hd => Or.inl hd, fun _ _ _ hr => Or.inl hr, h.writes⟩
  exact hg.stays rfl fun hp => ⟨hp, rfl⟩

omit h in
theorem stays_qpClock (hs : WriteRule.qpClock B s v = some s') : Stays B s s' := by
  unfold WriteRule.qpClock at hs
  obtain ⟨⟨hphase, -⟩, hs⟩ := Option.ite_none_right_eq_some.mp hs
  cases hs
  refine Goes.stays (goes_qp hi (by constructor <;> rfl) ?_ (Nat.le_max_left ..) (fun _ hu => hu)
    (Nat.le_refl _) rfl ?_ fun u c hu hc _ => ⟨hc, fun hb => ?_⟩) rfl (by simp)
  · rintro ⟨m, hm⟩
    rcases hphase with hp | hp <;> rw [hp] at hm <;> cases hm
  · rintro (hp | ⟨m, hp⟩) <;> cases hp
  · -- no transaction began in the round that begins
    have := (hi.qp.active u hu).2.1
    have hb' : s.began u = s.round + 1 := hb
    omega

omit h in
theorem stays_qpInit (hs : WriteRule.qpInit s = some s') : Stays B s s' := by
  unfold WriteRule.qpInit at hs
  obtain ⟨hphase, hs⟩ := Option.ite_none_right_eq_some.mp hs
  cases hs
  refine Goes.stays (goes_qp hi (by constructor <;> rfl) ?_ (Nat.le_refl _) (fun _ hu => hu)
    (Nat.le_refl _) rfl ?_ fun u c _ hc hw => ⟨hc, fun hb => absurd hphase (hw hb).1⟩) rfl
    (by simp)
  · rintro ⟨m, hm⟩
    rw [hphase] at hm
    cases hm
  · rintro (hp | ⟨m, hp⟩) <;> cases hp

theorem stays_qpSkip (hs : WriteRule.qpSkip B s t = some s') : Stays B s s' := by
  unfold WriteRule.qpSkip at hs
  obtain ⟨⟨hphase, -⟩, hs⟩ := Option.ite_none_right_eq_some.mp hs
  cases hs
  refine Goes.stays (goes_qp hi (by constructor <;> rfl) ?_ (Nat.le_refl _) (fun _ hu => hu)
    (Nat.le_refl _) rfl h.gap fun _ _ _ hc hw => ⟨hc, hw⟩) rfl fun hp => ⟨hp, rfl⟩
  rintro ⟨m, hm⟩
  rw [hphase] at hm
  cases hm

omit h in
theorem stays_qpDone (hap : Apart B s .qpDone) (hs : WriteRule.qpDone B s = some s') :
    Stays B s s' := by
  unfold WriteRule.qpDone at hs
  obtain ⟨⟨hphase, hnil⟩, hs⟩ := Option.ite_none_right_eq_some.mp hs
  cases hs
  refine Goes.stays (goes_qp hi (by constructor <;> rfl) ?_ (Nat.le_refl _) (fun _ hu => hu)
    hi.qp.qp0 rfl (fun _ => ltClock_iff.mp hap) fun u c hu _ hw => ?_) rfl (by simp)
  · rintro ⟨m, hm⟩
    rw [hphase] at hm
    cases hm
  · -- all running transactions began in the round, and their masters are the original ones
    rcases hi.qp.waiting hphase u hu with h1 | h1
    · rw [hnil] at h1
      cases h1
    · exact absurd hphase (hw h1).2

theorem goes_trigger {m : Mode} (hs : WriteRule.trigger s m = some s') : Goes B s s' := by
  unfold WriteRule.trigger at hs
  obtain ⟨hphase, hs⟩ := Option.ite_none_right_eq_some.mp hs
  cases hs
  refine goes_qp hi (by constructor <;> rfl) ?_ (Nat.le_refl _) (fun _ hu => hu)
    (Nat.le_refl _) rfl (fun _ => h.gap (Or.inl hphase)) fun _ _ _ hc _ => ⟨hc, by simp⟩
  rintro ⟨m', hm⟩
  rw [hphase] at hm
  cases hm

omit hi in
/-- When all logs were reclaimed for a checkpoint, no version below its clock is left out. -/
theorem below_of_passed
    (hdone : ∀ k, (s.chain.copies k).inserted = true → (s.chain.copies k).wrtClk + B < s.qp0 →
      (s.slot k).passed ≠ none) (hk : (s.chain.copies k).inserted = true)
    (hclk : (s.chain.copies k).wrtClk + B < s.qp0) : AtLeast s k := by
  -- from the newest version on
  induction hn : s.qp0 - (s.chain.copies k).wrtClk using Nat.strongRecOn generalizing k with
  | _ n ih =>
    subst hn
    obtain ⟨r, hr⟩ := Option.ne_none_iff_exists'.mp (hdone k hk hclk)
    rcases h.passed k r hk hr with h1 | ⟨m, h1, h2, h3, h4⟩ | ⟨-, -, h1⟩
    · exact h.below k hk h1
    · intro hb
      rw [← h2] at hb ⊢
      obtain ⟨x, hx, hle⟩ := ih _ (by omega) h1 h4 rfl hb
      exact ⟨x, hx, by omega⟩
    · exact h1.cur

theorem ended {l : ℕ} {m : Mode} (hphase : s.phase = .reclaim m)
    (hidle : ∀ t, s.tv t = .idle ∧ s.ck t = .idle)
    (hbest : m = .bestEffort → l = s.lastCkpt) (hckpt : m = .ckpt → l = s.qp0)
    (hdone : m = .ckpt → ∀ k, (s.chain.copies k).inserted = true →
      (s.chain.copies k).wrtClk + B < s.qp0 → (s.slot k).passed ≠ none) :
    Frame B s { s with phase := .idle, lastCkpt := l } ∧
      Checkpoints B { s with phase := .idle, lastCkpt := l } := by
  have hle := h.le
  have hl : s.lastCkpt ≤ l ∧ l ≤ s.qp0 := by
    cases m with
    | bestEffort =>
      rw [hbest rfl]
      exact ⟨Nat.le_refl _, hle⟩
    | ckpt =>
      rw [hckpt rfl]
      exact ⟨hle, Nat.le_refl _⟩
  have hc : s.phase = .reclaim .ckpt → l = s.qp0 := by
    intro hp
    rw [hphase] at hp
    cases hp
    exact hckpt rfl
  have hm : SameThreads s { s with phase := .idle, lastCkpt := l } := by constructor <;> rfl
  have hf : Frame B s { s with phase := .idle, lastCkpt := l } :=
    frame_still hm (Nat.le_refl _) hl.1 rfl rfl rfl (fun _ => .refl)
      (fun _ _ _ hk => ⟨hk.kept, hk.passed⟩) (fun _ _ _ he => ⟨he.kept, he.passed⟩)
      fun _ _ _ h1 _ => ⟨h1, by simp⟩
  refine ⟨hf, ?_⟩
  constructor
  · exact h.announced
  · exact h.prevs
  · exact h.clk
  · exact h.owner
  · exact hl.2
  · rintro (hp | ⟨m', hp⟩) <;> cases hp
  · intro t m' ht
    have ht' : mode (s.tv t) = some m' := ht
    rw [(hidle t).1] at ht'
    cases ht'
  · intro t k ht
    have ht' : s.tv t = .enq k ∨ s.tv t = .detach k ∨ s.tv t = .detachCas k := ht
    rw [(hidle t).1] at ht'
    simp at ht'
  · intro k hk hd
    have htaken := h.detached k hk hd
    refine htaken.next hm hf hi (Nat.le_refl _) hl.1 hk fun hp => Or.inr ?_
    have := htaken.clk
    rw [← hc hp] at this
    exact this
  · intro k r hk hr
    refine (h.passed k r hk hr).next hm hf hi (Nat.le_refl _) hl.1 hk fun hp => Or.inr ?_
    rw [← hc hp]
    exact fun hlt => hlt
  · -- only a round with a checkpoint moves `__last_ckpt`, and it has passed all that is below
    intro k hk hlt
    have hlt' : (s.chain.copies k).wrtClk + B < l := hlt
    cases m with
    | bestEffort =>
      rw [hbest rfl] at hlt'
      exact h.below k hk hlt'
    | ckpt =>
      rw [hckpt rfl] at hlt'
      have hk' : AtLeast s k := below_of_passed h (hdone rfl) hk hlt'
      exact hk'
  · exact h.bottom
  · intro t e ht
    have ht' : s.ck t = .writeback e ∨ s.ck t = .store e := ht
    rw [(hidle t).2] at ht'
    simp at ht'

theorem Checkpoints.barrier (hdone : s.phase = .reclaim .ckpt →
      ∀ k, (s.chain.copies k).inserted = true → (s.chain.copies k).wrtClk + B < s.qp0 →
        (s.slot k).passed ≠ none)
    (hs : WriteRule.barrier s = some s') : Frame B s s' ∧ Checkpoints B s' := by
  unfold WriteRule.barrier at hs
  split at hs
  · rename_i m hphase
    obtain ⟨hall, hs⟩ := Option.ite_none_right_eq_some.mp hs
    cases hs
    have hidle : ∀ t, s.tv t = .idle ∧ s.ck t = .idle := by
      intro t
      constructor
      · by_contra ht
        exact ht (hall t (hi.rounds.tv t ht).1).1
      · by_contra ht
        exact ht (hall t (hi.rounds.ck t ht).1).2
    cases m with
    | bestEffort => exact ended h hi hphase hidle (fun _ => rfl) (by simp) (by simp)
    | ckpt => exact ended h hi hphase hidle (by simp) (fun _ => rfl) fun _ => hdone hphase
  · cases hs

/-! ### The log of the copies -/

/-- What the reclamations of the logs leave alone. -/
structure SameRound (s s' : WriteRule.State) : Prop where
  threads : s'.threads = s.threads
  lastClk : s'.lastClk = s.lastClk
  phase : s'.phase = s.phase
  round : s'.round = s.round
  qp0 : s'.qp0 = s.qp0
  qp2 : s'.qp2 = s.qp2
  lastCkpt : s'.lastCkpt = s.lastCkpt

omit hi in
theorem stays_log (hm : SameThreads s s') (hr : SameRound s s') (hf : Frame B s s')
    (hmode : ∀ u m, mode (s'.tv u) = some m → s.phase = .reclaim m)
    (hbusy : ∀ u k, s'.tv u = .enq k ∨ s'.tv u = .detach k ∨ s'.tv u = .detachCas k →
      s.phase = .reclaim .ckpt)
    (hdet : ∀ k, (s.chain.copies k).inserted = true → (s'.slot k).detached = true →
      (s.slot k).detached = true ∨ Taken B s' k)
    (hpass : ∀ k r, (s.chain.copies k).inserted = true → (s'.slot k).passed = some r →
      (s.slot k).passed = some r ∨ Passed B s' k r)
    (hwrites : ∀ u e, s'.ck u = .writeback e ∨ s'.ck u = .store e →
      (s'.entries e).ckptSClk ≤ s.qp2 + B)
    (hkept : ∀ k, (s.slot k).passed ≠ none → (s'.slot k).passed ≠ none) : Stays B s s' where
  same := hm
  frame := hf
  threads := by
    rw [hr.threads]
    exact fun _ hu => hu
  qp0 := Nat.le_of_eq hr.qp0.symm
  lastCkpt := hr.lastCkpt
  ckpt := by
    rw [hr.phase]
    exact fun hp => ⟨hp, hr.round⟩
  gap := by
    unfold Reclaiming
    rw [hr.phase, hr.qp0, hr.qp2]
    exact h.gap
  mode := by
    rw [hr.phase]
    exact hmode
  busy := by
    rw [hr.phase]
    exact hbusy
  detached := hdet
  passed := hpass
  writes := by
    rw [hr.qp2]
    exact hwrites
  kept := hkept
  round := by
    rw [hr.phase]
    exact fun hp => ⟨hp, hr.qp0⟩

/-- A `tvlog_reclaim_x` goes on. -/
theorem stays_tv {p : WriteRule.TvPc} (hm : SameThreads s s') (hr : SameRound s s')
    (hf : Frame B s s') (htv : ∀ u, s'.tv u = if u = t then p else s.tv u)
    (hp : ∀ m, mode p = some m → s.phase = .reclaim m)
    (hp' : ∀ k, p = .enq k ∨ p = .detach k ∨ p = .detachCas k → s.phase = .reclaim .ckpt)
    (hck : s'.ck = s.ck)
    (hclk : ∀ e < s.numEntries, (s'.entries e).ckptSClk = (s.entries e).ckptSClk)
    (hdet : ∀ k, (s.chain.copies k).inserted = true → (s'.slot k).detached = true →
      (s.slot k).detached = true ∨ Taken B s' k)
    (hpass : ∀ k r, (s.chain.copies k).inserted = true → (s'.slot k).passed = some r →
      (s.slot k).passed = some r ∨ Passed B s' k r)
    (hkept : ∀ k, (s.slot k).passed ≠ none → (s'.slot k).passed ≠ none) : Stays B s s' := by
  refine stays_log h hm hr hf (fun u m hu => ?_) (fun u k hu => ?_) hdet hpass (fun u e hu => ?_)
    hkept
  · rw [htv] at hu
    split at hu
    · exact hp m hu
    · exact h.mode u m hu
  · rw [htv] at hu
    split at hu
    · exact hp' k hu
    · exact h.busy u k hu
  · rw [hck] at hu
    rw [hclk e (hi.writes.entry u e hu)]
    exact h.writes u e hu

theorem stays_setTv {p : WriteRule.TvPc} (hp : ∀ m, mode p = some m → s.phase = .reclaim m)
    (hp' : ∀ k, p = .enq k ∨ p = .detach k ∨ p = .detachCas k → s.phase = .reclaim .ckpt) :
    Stays B s (s.setTv t p) := by
  have hm : SameThreads s (s.setTv t p) := by constructor <;> rfl
  exact stays_tv (t := t) (p := p) h hi hm (by constructor <;> rfl)
    (frame_still hm (Nat.le_refl _) (Nat.le_refl _) rfl rfl rfl (fun _ => .refl)
      (fun _ _ _ hk => ⟨hk.kept, hk.passed⟩) (fun _ _ _ he => ⟨he.kept, he.passed⟩)
      fun _ _ _ h1 h2 => ⟨h1, h2⟩)
    (fun u => Function.update_apply ..) hp hp' rfl (fun _ _ => rfl)
    (fun _ _ hd => Or.inl hd) (fun _ _ _ hr => Or.inl hr) fun _ hk => hk

/-- A reclamation goes past a copy. -/
theorem stays_pass {c : VersionChain.State} {p : WriteRule.TvPc}
    (hcop : c.copies = s.chain.copies) (hwss : c.wss = s.chain.wss)
    (hthr : c.threads = s.chain.threads) (hp : ∀ m, mode p = some m → s.phase = .reclaim m)
    (hp' : ∀ k, p = .enq k ∨ p = .detach k ∨ p = .detachCas k → s.phase = .reclaim .ckpt)
    (hpass : (s.chain.copies k).inserted = true → Passed B s k s.round) :
    Stays B s ((({ s with chain := c } : WriteRule.State).passSlot k).setTv t p) := by
  set s' : WriteRule.State := (({ s with chain := c } : WriteRule.State).passSlot k).setTv t p
    with hs'
  have hslot : ∀ j, s'.slot j =
      if j = k then { s.slot k with passed := (s.slot k).passed.or (some s.round) }
      else s.slot j := fun j => Function.update_apply ..
  have hm : SameThreads s s' := ⟨hcop, hwss, hthr, rfl, rfl⟩
  have hf : Frame B s s' := by
    refine frame_still hm (Nat.le_refl _) (Nat.le_refl _) rfl rfl rfl (fun _ => .refl)
      (fun u j hu hj => ?_) (fun _ _ _ he => ⟨he.kept, he.passed⟩) fun _ _ _ h1 h2 => ⟨h1, h2⟩
    -- a copy that is passed in this round stays for the transactions of the round
    rw [hslot]
    split
    · rename_i hjk
      rw [hjk] at hj
      refine ⟨hj.kept, fun r hr => ?_⟩
      rcases WriteRule.passed_or hr with h1 | h1
      · exact hj.passed r h1
      · rw [h1]
        exact (hi.qp.active u hu).2.1
    · exact ⟨hj.kept, hj.passed⟩
  refine stays_tv (t := t) (p := p) h hi hm (by constructor <;> rfl) hf
    (fun u => Function.update_apply ..) hp hp' rfl (fun _ _ => rfl) (fun j _ hd => ?_)
    (fun j r hj hr => ?_) fun j hj => ?_
  · rw [hslot] at hd
    split at hd
    · rename_i hjk
      rw [hjk]
      exact Or.inl hd
    · exact Or.inl hd
  · rw [hslot] at hr
    split at hr
    · rename_i hjk
      rw [hjk] at hj ⊢
      rcases WriteRule.passed_or hr with h1 | h1
      · exact Or.inl h1
      · rw [h1]
        exact Or.inr ((hpass hj).next hm hf hi (Nat.le_refl _) (Nat.le_refl _) hj
          fun hp => Or.inl ⟨hp, rfl⟩)
    · exact Or.inl hr
  · rw [hslot]
    split
    · simp
    · exact hj

theorem stays_tvStart {m : Mode} (hphase : s.phase = .reclaim m)
    (hs : WriteRule.tvStart s t m = some s') : Stays B s s' := by
  unfold WriteRule.tvStart at hs
  obtain ⟨-, hs⟩ := Option.ite_none_right_eq_some.mp hs
  cases hs
  set f : ℕ → WriteRule.Slot := fun k => if s.owner k = t then
    { s.slot k with behind := (s.slot k).passed.isSome } else s.slot k with hf
  have hslot : ∀ k, (f k).detached = (s.slot k).detached ∧ (f k).passed = (s.slot k).passed ∧
      (f k).freed = (s.slot k).freed := by
    intro k
    rw [hf]
    dsimp only
    split <;> exact ⟨rfl, rfl, rfl⟩
  have hm : SameThreads s { s.setTv t (.loop m) with
      tvRound := Function.update s.tvRound t s.round, slot := f } := by
    constructor <;> rfl
  refine stays_tv (t := t) (p := .loop m) h hi hm (by constructor <;> rfl)
    (frame_still hm (Nat.le_refl _) (Nat.le_refl _) rfl rfl rfl (fun _ => .refl)
      (fun u k _ hk => ?_) (fun _ _ _ he => ⟨he.kept, he.passed⟩) fun _ _ _ h1 h2 => ⟨h1, h2⟩)
    (fun u => Function.update_apply ..) ?_ (by simp) rfl (fun _ _ => rfl) (fun k _ hd => ?_)
    (fun k r _ hr => ?_) fun k hk => ?_
  · refine ⟨(hslot k).2.2.trans hk.kept, ?_⟩
    show ∀ r, (f k).passed = some r → _
    rw [(hslot k).2.1]
    exact hk.passed
  · rintro m' hm'
    cases hm'
    exact hphase
  · exact Or.inl ((hslot k).1.symm.trans hd)
  · exact Or.inl ((hslot k).2.1.symm.trans hr)
  · show (f k).passed ≠ none
    rw [(hslot k).2.1]
    exact hk

theorem stays_tvDrop (hs : WriteRule.tvDrop B s t k = some s') : Stays B s s' := by
  unfold WriteRule.tvDrop at hs
  split at hs
  · rename_i m hpc
    obtain ⟨⟨hin, hb, -⟩, hs⟩ := Option.ite_none_right_eq_some.mp hs
    have hmode : ∀ m', some m = some m' → s.phase = .reclaim m' :=
      fun m' hm' => h.mode t m' (by rw [hpc]; exact hm')
    split at hs <;> cases hs
    · exact stays_setTv h hi hmode (by simp)
    obtain ⟨-, h1, h2⟩ := hi.rounds.tv t (by simp [hpc])
    have hslot : ∀ j, (s.giveBack k).slot j =
        if j = k then { s.slot k with freed := true } else s.slot j :=
      fun j => Function.update_apply ..
    have hm : SameThreads s (s.giveBack k) := by constructor <;> rfl
    refine stays_tv (t := t) (p := s.tv t) h hi hm (by constructor <;> rfl)
      (frame_still hm (Nat.le_refl _) (Nat.le_refl _) rfl rfl rfl (fun _ => .refl)
        (fun u j hu hj => ?_) (fun _ _ _ he => ⟨he.kept, he.passed⟩) fun _ _ _ h1 h2 => ⟨h1, h2⟩)
      (fun u => ?_) (h.mode t) (h.busy t) rfl (fun _ _ => rfl) (fun j _ hd => ?_)
      (fun j r _ hr => ?_) fun j hj => ?_
    · rw [hslot]
      split
      · -- a transaction that runs now began after the copy was passed
        rename_i hjk
        obtain ⟨r, hpass, hlt⟩ := hi.slots.behind k hb
        rw [hin.2.1, h2] at hlt
        have := hj.passed r (by rw [hjk]; exact hpass)
        rw [hi.began_eq h1 hu] at this
        omega
      · exact ⟨hj.kept, hj.passed⟩
    · show s.tv u = _
      split
      · rename_i hut
        rw [hut]
      · rfl
    · rw [hslot] at hd
      split at hd
      · rename_i hjk
        rw [hjk]
        exact Or.inl hd
      · exact Or.inl hd
    · rw [hslot] at hr
      split at hr
      · rename_i hjk
        rw [hjk]
        exact Or.inl hr
      · exact Or.inl hr
    · rw [hslot]
      split
      · rename_i hjk
        rw [hjk] at hj
        exact hj
      · exact hj
  · cases hs

/-- A version that is not at the borderline has a newer one below the clock, or is below the
last checkpoint. -/
theorem Checkpoints.not_borderline (hk : (s.chain.copies k).inserted = true)
    (hlt : ltClock B (s.chain.copies k).wrtClk s.qp0)
    (hb : ¬ atBorderline B (s.chain.copies k).wrtClk (s.chain.copies k).wrtClkPrev s.qp0
      s.lastCkpt) : Passed B s k r := by
  unfold atBorderline at hb
  split at hb
  · exact absurd hlt hb
  · rename_i hprev
    obtain ⟨n, h1, h2, h3⟩ := h.prevs k hk hprev
    have hl := hi.chain.chains.link n k h1 h2
    by_cases hn : gteClock B (s.chain.copies k).wrtClkPrev s.qp0
    · refine Or.inl ?_
      by_contra hge
      exact hb ⟨hn, hlt, gteClock_iff.mpr (by omega)⟩
    · rw [gteClock_iff] at hn
      refine Or.inr (Or.inl ⟨n, h1, hl.obj.symm, ?_, by omega⟩)
      have := hl.gap (by rw [VersionChain.Copy.Committed, h3]; exact hprev)
      omega

theorem stays_tvVisit (hs : WriteRule.tvVisit B s t k = some s') : Stays B s s' := by
  unfold WriteRule.tvVisit at hs
  split at hs
  · rename_i m hpc
    dsimp only at hs
    obtain ⟨⟨hin, hw, hlt⟩, hs⟩ := Option.ite_none_right_eq_some.mp hs
    obtain ⟨-, hws⟩ := hi.visited hin hw hlt
    rw [hws] at hlt
    have hphase := h.mode t m (by rw [hpc]; rfl)
    split at hs
    · rename_i hskip
      cases hs
      have hself : (s.passSlot k).setTv t (.loop m) = s.passSlot k := by
        show { s.passSlot k with tv := Function.update s.tv t (.loop m) } = _
        rw [← hpc, Function.update_eq_self]
        rfl
      rw [← hself]
      refine stays_pass h hi rfl rfl rfl (fun m' hm' => by cases hm'; exact hphase) (by simp)
        fun hk => ?_
      rcases hskip with hfree | hdet | hnot
      · rw [(hi.chain.chains.alloc k hk).2] at hfree
        cases hfree
      · have htaken := h.detached k hk hdet
        rcases htaken.done with h1 | h1
        · exact Or.inl h1
        · exact Or.inr (Or.inr ⟨h1, rfl, htaken⟩)
      · exact h.not_borderline hi hk hlt hnot
    · cases m with
      | bestEffort => cases hs
      | ckpt =>
        cases hs
        exact stays_setTv h hi (by simp [mode]) fun _ _ => hphase
  · cases hs

/-- `_ckptlog_enq`: the entry of the round is too new to be written back in it. -/
theorem stays_put {x : WriteRule.Slot} {p : WriteRule.TvPc} (hr : Reclaiming s)
    (hk : (s.chain.copies k).kind = .free ∨ Enqueuing B s t k)
    (hpassed : x.passed = (s.slot k).passed) (hfreed : x.freed = (s.slot k).freed)
    (hd : x.detached = true →
      (s.slot k).detached = true ∨ Enqueuing B s t k ∧ s.phase = .reclaim .ckpt)
    (hp : ∀ m, mode p = some m → s.phase = .reclaim m)
    (hp' : ∀ k, p = .enq k ∨ p = .detach k ∨ p = .detachCas k → s.phase = .reclaim .ckpt) :
    Stays B s ((s.put t k x).setTv t p) := by
  have hgap := h.gap (Or.inr hr)
  set s' : WriteRule.State := (s.put t k x).setTv t p with hs'
  have hslot : ∀ j, s'.slot j = if j = k then x else s.slot j := fun j => WriteRule.put_slot
  have hfields : ∀ j, (s'.slot j).passed = (s.slot j).passed ∧
      (s'.slot j).freed = (s.slot j).freed := by
    intro j
    rw [hslot]
    split
    · rename_i hjk
      rw [hjk]
      exact ⟨hpassed, hfreed⟩
    · exact ⟨rfl, rfl⟩
  have hold : ∀ e < s.numEntries, s'.entries e = s.entries e :=
    fun e he => WriteRule.put_old (t := t) (x := x) he
  have hnew : (s'.entries s.numEntries).ckptSClk = s.qp0 := by
    rw [show s'.entries s.numEntries = _ from WriteRule.put_entries (x := x), if_pos rfl]
  have hcur : ∀ o, s'.npCurAct o =
      if o = (s.chain.copies k).obj then .entry s.numEntries else s.npCurAct o :=
    fun o => WriteRule.put_npCurAct (t := t) (x := x)
  have hver : ∀ o, s'.curVer o = (s.put t k x).curVer o := fun o => WriteRule.setTv_ver _
  have hm : SameThreads s s' := by constructor <;> rfl
  have hf : Frame B s s' := by
    refine frame_of hm (Nat.le_refl _) (Nat.le_refl _) (fun u j _ hj => ?_) (fun u e _ he => ?_)
      (fun o ho => WriteRule.put_tombstoned (x := x) ho) (fun o n hb hn => ?_)
      fun u o _ hu ho => ⟨?_, rfl⟩
    · rw [(hfields j).1, (hfields j).2]
      exact ⟨hj.kept, hj.passed⟩
    · rw [hold e he.lt]
      exact ⟨Nat.lt_succ_of_lt he.lt, he.kept, he.passed, rfl⟩
    · rw [hver]
      exact hi.masters.put_keeps hk hb hn
    · unfold OrgOk
      rw [hcur]
      split
      · -- the new entry is too young to be written back while the transaction runs
        refine Or.inr ⟨s.numEntries, rfl, ?_, fun _ => ?_⟩
        · rw [hnew]
          exact hgap
        · show s.phase ≠ .clock ∧ s.phase ≠ .wait
          obtain ⟨m, hm⟩ := hr
          simp [hm]
      · rcases ho with h1 | ⟨e, h1, h2⟩
        · exact Or.inl h1
        · refine Or.inr ⟨e, h1, ?_⟩
          rw [hold e (hi.masters.cur o e h1).1]
          exact h2
  refine stays_tv (t := t) (p := p) h hi hm (by constructor <;> rfl) hf
    (fun u => Function.update_apply ..) hp hp' rfl (fun e he => by rw [hold e he])
    (fun j _ hdj => ?_) (fun j r _ hr => ?_) fun j hj => ?_
  · rw [hslot] at hdj
    split at hdj
    · rename_i hjk
      rw [hjk]
      rcases hd hdj with h1 | ⟨h1, h2⟩
      · exact Or.inl h1
      · -- the version that is enqueued is the newest one of the checkpoint
        refine Or.inr ⟨h1.clk, Or.inr h2, fun _ => ⟨k, ?_, Nat.le_refl _⟩⟩
        rw [hver, WriteRule.put_curVer hi.masters]
        exact if_pos rfl
    · exact Or.inl hdj
  · exact Or.inl ((hfields j).1.symm.trans hr)
  · rw [(hfields j).1]
    exact hj

/-- The current entry of a freed object is marked. -/
theorem stays_tombMark {m : Mode} (hphase : s.phase = .reclaim m) :
    Stays B s (((s.markCur k).mark k).setTv t (.loop m)) := by
  have hslot : ∀ j, (s.mark k).slot j = if j = k then { s.slot k with marked := true }
      else s.slot j := fun j => Function.update_apply ..
  have hfields : ∀ j, ((s.mark k).slot j).detached = (s.slot j).detached ∧
      ((s.mark k).slot j).passed = (s.slot j).passed ∧
        ((s.mark k).slot j).freed = (s.slot j).freed := by
    intro j
    rw [hslot]
    split
    · rename_i hjk
      rw [hjk]
      exact ⟨rfl, rfl, rfl⟩
    · exact ⟨rfl, rfl, rfl⟩
  -- the mark changes no field that a reader looks at, whichever memory it hits
  have hmark : ∀ f : ℕ → WriteRule.Entry, (∀ e, SameEntry (f e) (s.entries e) ∧
      (f e).freed = (s.entries e).freed ∧ (f e).passed = (s.entries e).passed) →
      Stays B s ((({ s with entries := f } : WriteRule.State).mark k).setTv t (.loop m)) := by
    intro f hf
    set s' : WriteRule.State :=
      (({ s with entries := f } : WriteRule.State).mark k).setTv t (.loop m) with hs'
    have hs : s'.slot = (s.mark k).slot := rfl
    have hm : SameThreads s s' := by constructor <;> rfl
    refine stays_tv (t := t) (p := .loop m) h hi hm (by constructor <;> rfl)
      (frame_still hm (Nat.le_refl _) (Nat.le_refl _) rfl rfl rfl (fun e => (hf e).1)
        (fun _ j _ hj => ?_) (fun _ e _ he => ?_) fun _ _ _ h1 h2 => ⟨h1, h2⟩)
      (fun u => Function.update_apply ..) (fun m' hm' => ?_) (by simp) rfl
      (fun e _ => (hf e).1.ckptSClk) (fun j _ hd => ?_) (fun j r _ hr => ?_) fun j hj => ?_
    · rw [hs, (hfields j).2.1, (hfields j).2.2]
      exact ⟨hj.kept, hj.passed⟩
    · show (f e).freed = false ∧ ∀ r, (f e).passed = some r → _
      rw [(hf e).2.1, (hf e).2.2]
      exact ⟨he.kept, he.passed⟩
    · cases hm'
      exact hphase
    · rw [hs, (hfields j).1] at hd
      exact Or.inl hd
    · rw [hs, (hfields j).2.1] at hr
      exact Or.inl hr
    · rw [hs, (hfields j).2.1]
      exact hj
  unfold WriteRule.State.markCur
  split
  · exact hmark s.entries fun _ => ⟨.refl, rfl, rfl⟩
  · refine hmark _ fun i => ?_
    rw [Function.update_apply]
    split
    · rename_i hie
      rw [hie]
      exact ⟨⟨rfl, rfl, rfl, fun _ => rfl⟩, rfl, rfl⟩
    · exact ⟨.refl, rfl, rfl⟩

theorem stays_tvStep (hs : WriteRule.tvStep s t = some s') : Stays B s s' := by
  have hdone : ∀ k, s.tv t = .detach k ∨ s.tv t = .detachCas k →
      (∀ m, mode (.loop .ckpt) = some m → s.phase = .reclaim m) ∧ Passed B s k s.round := by
    intro k hk
    have hphase := h.busy t k (Or.inr hk)
    have hset := (hi.detaches.detach t k hk).settled
    refine ⟨fun m hm => by cases hm; exact hphase, ?_⟩
    exact Or.inr (Or.inr ⟨hphase, rfl, h.detached k hset.inserted hset.detached⟩)
  have htomb : ∀ m k, mode (s.tv t) = some m → (s.tv t).grave = some k →
      (∀ m', some m = some m' → s.phase = .reclaim m') ∧ (s.chain.copies k).kind = .free := by
    intro m k hm hk
    refine ⟨fun m' hm' => ?_, (hi.tombs.call t k hk).kind⟩
    exact h.mode t m' (hm.trans hm')
  unfold WriteRule.tvStep at hs
  split at hs
  · rename_i m k hpc
    obtain ⟨h1, -⟩ := htomb m k (by rw [hpc]; rfl) (by rw [hpc]; rfl)
    split at hs <;> cases hs <;> exact stays_setTv h hi h1 (by simp)
  · rename_i m k hpc
    obtain ⟨h1, h2⟩ := htomb m k (by rw [hpc]; rfl) (by rw [hpc]; rfl)
    cases hs
    exact stays_put h hi ⟨m, h1 m rfl⟩ (Or.inl h2) rfl rfl Or.inl h1 (by simp)
  · rename_i m k hpc
    obtain ⟨h1, -⟩ := htomb m k (by rw [hpc]; rfl) (by rw [hpc]; rfl)
    cases hs
    exact stays_tombMark h hi (h1 m rfl)
  · rename_i k hk
    cases hs
    have henq := hi.detaches.enq t k hk
    have hphase := h.busy t k (Or.inl hk)
    exact stays_put h hi ⟨_, hphase⟩ (Or.inr henq) rfl rfl (fun _ => Or.inr ⟨henq, hphase⟩)
      (by simp [mode]) fun _ _ => hphase
  · rename_i k hk
    split at hs <;> cases hs
    · obtain ⟨h1, h2⟩ := hdone k (Or.inl hk)
      exact stays_pass h hi rfl rfl rfl h1 (by simp) fun _ => h2
    · exact stays_setTv h hi (by simp [mode]) fun _ _ => h.busy t k (Or.inr (Or.inl hk))
  · rename_i k hk
    dsimp only at hs
    obtain ⟨h1, h2⟩ := hdone k (Or.inr hk)
    split at hs <;> cases hs
    · exact stays_pass (c := s.chain.setPCopy (s.chain.copies k).obj none) h hi rfl rfl rfl h1
        (by simp) fun _ => h2
    · exact stays_pass h hi rfl rfl rfl h1 (by simp) fun _ => h2
  · cases hs

theorem stays_tvEnd (hs : WriteRule.tvEnd s t = some s') : Stays B s s' := by
  unfold WriteRule.tvEnd at hs
  split at hs
  · cases hs
    exact stays_setTv h hi (by simp [mode]) (by simp)
  · cases hs

/-! ### The log of the checkpoints -/

omit hi in
/-- A `ckptlog_reclaim_x` goes on. -/
theorem stays_ck {p : WriteRule.CkPc} (hm : SameThreads s s') (hr : SameRound s s')
    (hf : Frame B s s') (hck : ∀ u, s'.ck u = if u = t then p else s.ck u)
    (hp : ∀ e, p = .writeback e ∨ p = .store e → (s.entries e).ckptSClk ≤ s.qp2 + B)
    (htv : s'.tv = s.tv) (hslot : s'.slot = s.slot)
    (hclk : ∀ e, (s'.entries e).ckptSClk = (s.entries e).ckptSClk) : Stays B s s' := by
  refine stays_log h hm hr hf ?_ ?_ (fun k _ hd => ?_) (fun k r _ hpass => ?_) (fun u e hu => ?_) ?_
  · rw [htv]
    exact h.mode
  · rw [htv]
    exact h.busy
  · rw [hslot] at hd
    exact Or.inl hd
  · rw [hslot] at hpass
    exact Or.inl hpass
  · rw [hclk]
    rw [hck] at hu
    split at hu
    · exact hp e hu
    · exact h.writes u e hu
  · rw [hslot]
    exact fun _ hk => hk

omit hi in
/-- Another record of what was passed and given back. -/
theorem stays_entries {f : ℕ → WriteRule.Entry} {a : ℕ → ℕ} {p : WriteRule.CkPc}
    (hsame : ∀ e, SameEntry (f e) (s.entries e))
    (hsafe : ∀ u e, s.Active u → SafeEntry s u e → (f e).freed = false ∧
      ∀ r, (f e).passed = some r → s.began u ≤ r)
    (hp : ∀ e, p = .writeback e ∨ p = .store e → (s.entries e).ckptSClk ≤ s.qp2 + B) :
    Stays B s { s with ck := Function.update s.ck t p, entries := f, ckRound := a } := by
  have hm : SameThreads s { s with
      ck := Function.update s.ck t p, entries := f, ckRound := a } := by
    constructor <;> rfl
  exact stays_ck (t := t) (p := p) h hm (by constructor <;> rfl)
    (frame_still hm (Nat.le_refl _) (Nat.le_refl _) rfl rfl rfl hsame
      (fun _ _ _ hk => ⟨hk.kept, hk.passed⟩) hsafe fun _ _ _ h1 h2 => ⟨h1, h2⟩)
    (fun u => Function.update_apply ..) hp rfl rfl fun e => (hsame e).ckptSClk

omit hi in
theorem stays_ckStart (hs : WriteRule.ckStart s t = some s') : Stays B s s' := by
  unfold WriteRule.ckStart at hs
  obtain ⟨-, hs⟩ := Option.ite_none_right_eq_some.mp hs
  cases hs
  refine stays_entries h (fun e => ?_) (fun u e _ he => ?_) (by simp)
  · split <;> exact ⟨rfl, rfl, rfl, id⟩
  · split <;> exact ⟨he.kept, he.passed⟩

theorem stays_ckDrop (hs : WriteRule.ckDrop s t e = some s') : Stays B s s' := by
  unfold WriteRule.ckDrop at hs
  obtain ⟨⟨hloop, hin, hb⟩, hs⟩ := Option.ite_none_right_eq_some.mp hs
  cases hs
  obtain ⟨-, h1, h2⟩ := hi.rounds.ck t (by simp [hloop])
  have hself : ∀ i, Function.update s.entries e { s.entries e with freed := true } i =
    if i = e then { s.entries e with freed := true } else s.entries i :=
      fun i => Function.update_apply ..
  have hg : Stays B s { s with
      ck := Function.update s.ck t (s.ck t)
      entries := Function.update s.entries e { s.entries e with freed := true }
      ckRound := s.ckRound } := by
    refine stays_entries h (fun i => ?_) (fun u i hu he => ?_) (h.writes t)
    · rw [hself]
      split
      · rename_i hie
        rw [hie]
        exact ⟨rfl, rfl, rfl, id⟩
      · exact .refl
    · rw [hself]
      split
      · -- a transaction that runs now began after the entry was passed
        rename_i hie
        obtain ⟨r, hpass, hlt⟩ := hi.entries.behind e hb
        rw [hin.2.1, h2] at hlt
        have := he.passed r (by rw [hie]; exact hpass)
        rw [hi.began_eq h1 hu] at this
        omega
      · exact ⟨he.kept, he.passed⟩
  rw [Function.update_eq_self] at hg
  exact hg

omit h hi in
theorem passEntry_same : SameEntry ((s.passEntry e).entries j) (s.entries j) := by
  have hself : (s.passEntry e).entries j = if j = e then { s.entries e with
      passed := (s.entries e).passed.or (some s.round) } else s.entries j :=
    Function.update_apply ..
  rw [hself]
  split
  · rename_i hje
    rw [hje]
    exact ⟨rfl, rfl, rfl, id⟩
  · exact .refl

omit h in
theorem safe_passEntry (hu : s.Active u) (he : SafeEntry s u j) :
    ((s.passEntry e).entries j).freed = false ∧
      ∀ r, ((s.passEntry e).entries j).passed = some r → s.began u ≤ r := by
  have hself : (s.passEntry e).entries j = if j = e then { s.entries e with
      passed := (s.entries e).passed.or (some s.round) } else s.entries j :=
    Function.update_apply ..
  rw [hself]
  split
  · rename_i hje
    rw [hje] at he
    refine ⟨he.kept, fun r hr => ?_⟩
    rcases WriteRule.passed_or hr with h1 | h1
    · exact he.passed r h1
    · rw [h1]
      exact (hi.qp.active u hu).2.1
  · exact ⟨he.kept, he.passed⟩

theorem stays_ckVisit (hs : WriteRule.ckVisit B s t e = some s') : Stays B s s' := by
  unfold WriteRule.ckVisit at hs
  obtain ⟨⟨-, -, hle⟩, hs⟩ := Option.ite_none_right_eq_some.mp hs
  split at hs <;> cases hs
  · refine stays_entries (f := s.entries) (a := s.ckRound) h (fun _ => .refl)
      (fun _ _ _ he => ⟨he.kept, he.passed⟩) ?_
    rintro e' (he | he) <;> cases he
    rw [lteClock, gtClock_iff] at hle
    omega
  · have hg : Stays B s { s with
        ck := Function.update s.ck t (s.ck t)
        entries := (s.passEntry e).entries
        ckRound := s.ckRound } :=
      stays_entries h (fun _ => passEntry_same) (fun u i hu hi' => safe_passEntry hi hu hi')
        (h.writes t)
    rw [Function.update_eq_self] at hg
    exact hg

omit h hi in
/-- While an entry is written back, the object has no reader of its original master. -/
theorem orgOk_of_writeback (hcur : s.npCurAct (s.entries e).obj = .entry e)
    (hle : (s.entries e).ckptSClk ≤ s.qp2 + B) (ho : OrgOk B s u o) : o ≠ (s.entries e).obj := by
  rintro rfl
  rcases ho with h1 | ⟨e', h1, h2, -⟩
  · rw [hcur] at h1
    cases h1
  · rw [hcur] at h1
    cases h1
    omega

theorem stays_ckStep (hok : WriteRule.Orderly s (.ckStep t))
    (hs : WriteRule.ckStep s t = some s') : Stays B s s' := by
  have hok' : WriteRule.StillCurrent s (s.ck t) := hok
  unfold WriteRule.ckStep at hs
  split at hs
  · rename_i e he
    cases hs
    rw [he] at hok'
    have hle := h.writes t e (Or.inl he)
    have hcur : s.npCurAct (s.entries e).obj = .entry e := hok'
    have hm : SameThreads s ((s.writeback e).setCk t (.store e)) := by constructor <;> rfl
    refine stays_ck (t := t) (p := .store e) h hm (by constructor <;> rfl)
      (frame_of hm (Nat.le_refl _) (Nat.le_refl _) (fun _ _ _ hk => ⟨hk.kept, hk.passed⟩)
        (fun _ _ _ he => ⟨he.lt, he.kept, he.passed, rfl⟩) (fun _ ho => ho)
        (fun o n _ hn => ⟨n, ?_, Nat.le_refl _⟩) fun u o _ _ ho => ⟨ho, ?_⟩)
      (fun u => Function.update_apply ..) ?_ rfl rfl fun _ => rfl
    · exact (WriteRule.writeback_curVer hcur).trans hn
    · show (s.writeback e).npOrgAct o = _
      -- an original object that is being read is not written over
      rw [WriteRule.writeback_npOrgAct, if_neg (orgOk_of_writeback hcur hle ho)]
    · rintro e' (he' | he') <;> cases he'
      exact hle
  · rename_i e he
    cases hs
    rw [he] at hok'
    have hle := h.writes t e (Or.inr he)
    have hcur : s.npCurAct (s.entries e).obj = .entry e := hok'
    have horg := hi.writes.store t e he hcur
    set s' : WriteRule.State := ((s.setCurAct (s.entries e).obj .org).passEntry e).setCk t .loop
      with hs'
    have hentries : s'.entries = (s.passEntry e).entries := rfl
    have hm : SameThreads s s' := by constructor <;> rfl
    refine stays_ck (t := t) (p := .loop) h hm (by constructor <;> rfl)
      (frame_of hm (Nat.le_refl _) (Nat.le_refl _) (fun _ _ _ hk => ⟨hk.kept, hk.passed⟩)
        (fun u i hu hi' => ?_) (fun o ho => ?_) (fun o n _ hn => ⟨n, ?_, Nat.le_refl _⟩)
        fun u o _ hu ho => ⟨?_, rfl⟩)
      (fun u => Function.update_apply ..) (by simp) rfl rfl fun i => ?_
    · rw [hentries]
      obtain ⟨h1, h2⟩ := safe_passEntry (e := e) hi hu hi'
      exact ⟨hi'.lt, h1, h2, passEntry_same.ver⟩
    · obtain ⟨i, h1, h2, h3⟩ := ho
      exact ⟨i, h1, passEntry_same.obj.trans h2, passEntry_same.tombstone h3⟩
    · rw [← hn, ← WriteRule.store_curVer hcur horg]
      unfold WriteRule.State.curVer
      have hact : s'.npCurAct o = (s.setCurAct (s.entries e).obj .org).npCurAct o := rfl
      rw [hact]
      cases (s.setCurAct (s.entries e).obj .org).npCurAct o with
      | org => rfl
      | entry i => exact congrArg some (hentries ▸ passEntry_same.ver)
    · have hne := orgOk_of_writeback hcur hle ho
      have hact : s'.npCurAct o = s.npCurAct o := Function.update_of_ne hne ..
      unfold OrgOk
      rw [hact, hentries]
      rcases ho with h1 | ⟨i, h1, h2⟩
      · exact Or.inl h1
      · refine Or.inr ⟨i, h1, ?_⟩
        rw [passEntry_same.ckptSClk]
        exact h2
    · rw [hentries]
      exact passEntry_same.ckptSClk
  · cases hs

omit hi in
theorem stays_ckEnd (hs : WriteRule.ckEnd s t = some s') : Stays B s s' := by
  unfold WriteRule.ckEnd at hs
  obtain ⟨-, hs⟩ := Option.ite_none_right_eq_some.mp hs
  cases hs
  exact stays_entries (f := s.entries) (a := s.ckRound) h (fun _ => .refl)
    (fun _ _ _ he => ⟨he.kept, he.passed⟩) (by simp)

end

end TimeStone.SnapshotRead
