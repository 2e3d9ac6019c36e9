/-
The borderline of a checkpoint (`is_at_borderline`, `get_ckpt_chs`).

A checkpoint at `ckpt_s_clk` writes the newest version of an object before that
clock.  A thread that meets a copy in its own log decides this from three clocks in
the copy; `get_ckpt_chs` walks the chain of the object, and
`_dbg_assert_is_at_borderline` compares the two.

`LiveChain` is the version-chain invariant for the copies of an object that are not
reclaimed yet, newest first.  Nothing is said about what lies behind them: the walk
gets there only past a copy that it does not return.

* `liveChain_of_reachable` — every path of copies from the head of a chain is a
  `LiveChain`, in every state of every run of the chains;
* `borderline_iff_getCkptChs` — on a `LiveChain` the two tests agree, and at most
  one copy is at the borderline.
-/
import TimeStone.VersionChainCommit
import Mathlib.Data.List.Chain

namespace TimeStone.VersionChain

/-- `is_at_borderline`. -/
def isAtBorderline (B : ℕ) (c : Copy) (ckptSClk lastCkptClk : ℕ) : Prop :=
  atBorderline B c.wrtClk c.wrtClkPrev ckptSClk lastCkptClk

instance (B : ℕ) (c : Copy) (ckptSClk lastCkptClk : ℕ) :
    Decidable (isAtBorderline B c ckptSClk lastCkptClk) :=
  inferInstanceAs (Decidable (atBorderline ..))

/-- The loop of `get_ckpt_chs` from the copy `p` on: `none` when the fuel runs out,
and otherwise the copy it returns, if any. -/
def ckptLoop (B : ℕ) (s : State) (ckptSClk lastCkptClk : ℕ) :
    ℕ → Option ℕ → Option (Option ℕ)
  | _, none => some none
  | 0, some _ => none
  | fuel + 1, some k =>
    let c := s.copies k
    -- a version that is not committed is skipped
    if c.wrtClk = maxVersion then ckptLoop B s ckptSClk lastCkptClk fuel c.pCopy
    else if ltClock B c.wrtClk ckptSClk then some (some k)
    else if ltClock B c.wrtClkNext lastCkptClk then some none
    else ckptLoop B s ckptSClk lastCkptClk fuel c.pCopy

/-- `get_ckpt_chs`. -/
def getCkptChs (B : ℕ) (s : State) (k ckptSClk lastCkptClk fuel : ℕ) : Option (Option ℕ) :=
  ckptLoop B s ckptSClk lastCkptClk fuel (s.pCopy (s.copies k).obj)

/-- The copies `ks` follow each other from `p` on, and `q` comes behind them. -/
inductive Path (s : State) : Option ℕ → List ℕ → Option ℕ → Prop
  | nil (p : Option ℕ) : Path s p [] p
  | cons {k : ℕ} {ks : List ℕ} {q : Option ℕ} : Path s (s.copies k).pCopy ks q →
      Path s (some k) (k :: ks) q

/-- The version-chain invariant for a pair of copies, `n` newer than `k`. -/
structure Newer (B : ℕ) (s : State) (n k : ℕ) : Prop where
  committed : (s.copies k).Committed
  gap : (s.copies n).Committed → (s.copies k).wrtClk + 2 * B < (s.copies n).wrtClk
  next : (s.copies n).Committed → (s.copies n).wrtClkNext = (s.copies k).wrtClk
  prev : (s.copies n).Committed → (s.copies k).wrtClkPrev = (s.copies n).wrtClk
  prevMax : ¬ (s.copies n).Committed → (s.copies k).wrtClkPrev = maxVersion

/-- The version-chain invariant for the object `o`: `ks` are the copies of its chain
that are not reclaimed, newest first. -/
structure LiveChain (B : ℕ) (s : State) (o : ℕ) (ks : List ℕ) (q : Option ℕ) : Prop where
  path : Path s (s.pCopy o) ks q
  obj : ∀ k ∈ ks, (s.copies k).obj = o
  head : ∀ k, s.pCopy o = some k → (s.copies k).wrtClkPrev = maxVersion
  newer : ks.IsChain (Newer B s)

section Search

variable {B o S L : ℕ} {s : State} {k : ℕ} {p q : Option ℕ} {ks pre post : List ℕ}

/-- The loop returns committed versions before the checkpoint only. -/
theorem ltClock_of_ckptLoop {fuel : ℕ} (h : ckptLoop B s S L fuel p = some (some k)) :
    ltClock B (s.copies k).wrtClk S := by
  induction fuel generalizing p with
  | zero =>
    rcases p with _ | n
    · simp [ckptLoop] at h
    · simp [ckptLoop] at h
  | succ fuel ih =>
    rcases p with _ | n
    · simp [ckptLoop] at h
    · simp only [ckptLoop] at h
      split at h
      · exact ih h
      · split at h
        · rename_i hlt
          rw [Option.some_inj, Option.some_inj] at h
          exact h ▸ hlt
        · split at h
          · simp at h
          · exact ih h

/-- Along the chain the committed versions get older. -/
theorem newer_pairwise (h : ks.IsChain (Newer B s)) :
    ks.Pairwise fun n k => (s.copies k).Committed ∧
      ((s.copies n).Committed → (s.copies k).wrtClk < (s.copies n).wrtClk) := by
  have hlt : ks.IsChain fun n k => (s.copies k).Committed ∧
      ((s.copies n).Committed → (s.copies k).wrtClk < (s.copies n).wrtClk) := by
    refine h.imp fun n k hnk => ⟨hnk.committed, fun hn => ?_⟩
    have := hnk.gap hn
    omega
  -- the relation is transitive, because the middle version is committed
  have htrans : IsTrans ℕ fun n k => (s.copies k).Committed ∧
      ((s.copies n).Committed → (s.copies k).wrtClk < (s.copies n).wrtClk) :=
    ⟨fun a b c hab hbc => ⟨hbc.1, fun ha => Nat.lt_trans (hbc.2 hab.1) (hab.2 ha)⟩⟩
  exact List.isChain_iff_pairwise.mp hlt

/-- The search returns a copy exactly when no newer committed version is before the
checkpoint. -/
theorem ckptLoop_eq_iff (hp : Path s p (pre ++ k :: post) q)
    (hc : (pre ++ k :: post).IsChain (Newer B s)) (hk : (s.copies k).Committed)
    (hL : ¬ ltClock B (s.copies k).wrtClk L) {fuel : ℕ} (hf : pre.length < fuel) :
    ckptLoop B s S L fuel p = some (some k) ↔ ltClock B (s.copies k).wrtClk S ∧
      ∀ n ∈ pre, (s.copies n).Committed → ¬ ltClock B (s.copies n).wrtClk S := by
  induction pre generalizing p fuel with
  | nil =>
    rcases hp with _ | hp
    obtain ⟨m, rfl⟩ := Nat.exists_eq_succ_of_ne_zero (Nat.ne_zero_of_lt hf)
    constructor
    · exact fun h => ⟨ltClock_of_ckptLoop h, by simp⟩
    · rintro ⟨h, -⟩
      simp only [ckptLoop]
      rw [if_neg hk, if_pos h]
  | cons n pre ih =>
    rcases hp with _ | hp
    obtain ⟨m, rfl⟩ := Nat.exists_eq_succ_of_ne_zero (Nat.ne_zero_of_lt hf)
    rw [List.length_cons] at hf
    have hrest := ih hp hc.tail (by omega : pre.length < m)
    have hnk := (List.pairwise_cons.mp (newer_pairwise hc)).1 k (by simp)
    simp only [ckptLoop]
    by_cases hn : (s.copies n).wrtClk = maxVersion
    · rw [if_pos hn, hrest]
      simp [Copy.Committed, hn]
    · rw [if_neg hn]
      by_cases hlt : ltClock B (s.copies n).wrtClk S
      · -- the newer version is returned
        have hne : n ≠ k := by
          rintro rfl
          exact Nat.lt_irrefl _ (hnk.2 hn)
        rw [if_pos hlt]
        simp only [Option.some_inj, hne, false_iff, not_and, not_forall]
        exact fun _ => ⟨n, List.mem_cons_self, hn, not_not_intro hlt⟩
      · -- the cut-off is behind the version `k`
        have hcut : ¬ ltClock B (s.copies n).wrtClkNext L := by
          obtain ⟨m, l, hl⟩ : ∃ m l, pre ++ k :: post = m :: l :=
            List.exists_cons_of_ne_nil (by simp)
          rw [List.cons_append, hl, List.isChain_cons_cons] at hc
          rw [hc.1.next hn]
          have hkm : k ∈ m :: l := by
            rw [← hl]
            simp
          have hle : (s.copies k).wrtClk ≤ (s.copies m).wrtClk := by
            rcases List.mem_cons.mp hkm with rfl | hkl
            · exact Nat.le_refl _
            · exact (((List.pairwise_cons.mp (newer_pairwise hc.2)).1 k hkl).2
                hc.1.committed).le
          rw [ltClock_iff] at hL ⊢
          omega
        rw [if_neg hlt, if_neg hcut, hrest]
        simp only [List.mem_cons, forall_eq_or_imp, and_congr_right_iff]
        intro _
        exact ⟨fun h => ⟨fun _ => hlt, h⟩, fun h => h.2⟩

/-- On a chain that ends the search returns. -/
theorem ckptLoop_isSome (hp : Path s p ks none) {fuel : ℕ} (hf : ks.length ≤ fuel) :
    ∃ r, ckptLoop B s S L fuel p = some r := by
  induction ks generalizing p fuel with
  | nil =>
    rcases hp with _ | _
    exact ⟨none, by simp [ckptLoop]⟩
  | cons n ks ih =>
    rcases hp with _ | hp
    rw [List.length_cons] at hf
    obtain ⟨m, rfl⟩ : ∃ m, fuel = m + 1 := ⟨fuel - 1, by omega⟩
    obtain ⟨r, hr⟩ := ih hp (by omega : ks.length ≤ m)
    simp only [ckptLoop]
    split
    · exact ⟨r, hr⟩
    · split
      · exact ⟨_, rfl⟩
      · split
        · exact ⟨_, rfl⟩
        · exact ⟨r, hr⟩

/-- The three clocks of a copy say whether a newer committed version is before the
checkpoint. -/
theorem isAtBorderline_iff (hhead : pre = [] → (s.copies k).wrtClkPrev = maxVersion)
    (hc : (pre ++ k :: post).IsChain (Newer B s))
    (hL : ¬ ltClock B (s.copies k).wrtClk L) :
    isAtBorderline B (s.copies k) S L ↔ ltClock B (s.copies k).wrtClk S ∧
      ∀ n ∈ pre, (s.copies n).Committed → ¬ ltClock B (s.copies n).wrtClk S := by
  rcases pre.eq_nil_or_concat' with rfl | ⟨pre, n, rfl⟩
  · rw [isAtBorderline, atBorderline, if_pos (hhead rfl)]
    simp
  · rw [List.append_assoc, List.singleton_append] at hc
    have hpw := newer_pairwise hc
    rw [List.pairwise_append] at hpw
    have hnk : Newer B s n k := (List.isChain_append_cons_cons.mp hc).2.1
    by_cases hn : (s.copies n).Committed
    · -- the newer versions are all at least as new as the next one
      have hprev := hnk.prev hn
      have hold : ∀ m ∈ pre, (s.copies m).Committed →
          (s.copies n).wrtClk < (s.copies m).wrtClk :=
        fun m hm => (hpw.2.2 m hm n List.mem_cons_self).2
      rw [isAtBorderline, atBorderline, if_neg (by rw [hprev]; exact hn), hprev]
      simp only [gteClock, List.mem_append, List.mem_singleton]
      constructor
      · rintro ⟨h1, h2, -⟩
        refine ⟨h2, ?_⟩
        rintro m (hm | rfl) hmc
        · have := hold m hm hmc
          rw [ltClock_iff] at h1 ⊢
          omega
        · exact h1
      · rintro ⟨h1, h2⟩
        exact ⟨h2 n (Or.inr rfl) hn, h1, hL⟩
    · -- only the head is not committed, so no version is newer than it
      have hpre : pre = [] := by
        rcases pre.eq_nil_or_concat' with rfl | ⟨pre, m, rfl⟩
        · rfl
        · rw [List.append_assoc, List.singleton_append] at hc
          exact absurd (List.isChain_append_cons_cons.mp hc).2.1.committed hn
      subst hpre
      rw [isAtBorderline, atBorderline, if_pos (hnk.prevMax hn)]
      simp [hn]

end Search

/-! ### The chains of a run -/

section Reachable

variable {B o t k : ℕ} {s s' : State}

/-- While the newest version is not committed, the next one has no newer version. -/
def Uncovered (s : State) : Prop :=
  ∀ n k, (s.copies n).inserted = true → ¬ (s.copies n).Committed →
    (s.copies n).pCopy = some k → (s.copies k).wrtClkPrev = maxVersion

/-- A step that leaves the inserted copies and their `wrt_clk_prev` alone. -/
theorem Uncovered.of_fields (h : Uncovered s)
    (hins : ∀ n, (s'.copies n).inserted = true → (s.copies n).inserted = true ∧
      (s'.copies n).wrtClk = (s.copies n).wrtClk ∧ (s'.copies n).pCopy = (s.copies n).pCopy)
    (hprev : ∀ n k, (s.copies n).inserted = true → (s.copies n).pCopy = some k →
      (s.copies k).wrtClkPrev = maxVersion → (s'.copies k).wrtClkPrev = maxVersion) :
    Uncovered s' := by
  intro n k hn hc hp
  obtain ⟨h1, h2, h3⟩ := hins n hn
  rw [Copy.Committed, h2] at hc
  rw [h3] at hp
  exact hprev n k h1 hp (h n k h1 hc hp)

theorem Uncovered.of_copies (h : Uncovered s) (he : s'.copies = s.copies) : Uncovered s' :=
  h.of_fields (fun n hn => by rw [he] at hn ⊢; exact ⟨hn, rfl, rfl⟩) (by rw [he]; tauto)

theorem lockStep_copies (hs : lockStep B s t = some s') :
    s'.copies = s.copies ∨ ∃ o kind, s'.copies = (appendBegin s t o kind).copies := by
  have hjudge : ∀ o kind k w, (judge B s t o kind k w).copies = s.copies := by
    intro o kind k w
    rw [judge]
    split <;> rfl
  rw [VersionChain.lockStep] at hs
  split at hs
  · split at hs <;> simp only [Option.some_inj] at hs <;> exact Or.inl (hs ▸ rfl)
  · split at hs <;> simp only [Option.some_inj] at hs
    · exact Or.inl (hs ▸ hjudge ..)
    · exact Or.inl (hs ▸ rfl)
  · dsimp only at hs
    split at hs <;> simp only [Option.some_inj] at hs
    · exact Or.inl (hs ▸ hjudge ..)
    · exact Or.inl (hs ▸ rfl)
  · dsimp only at hs
    split at hs
    · contradiction
    · rw [Option.some_inj] at hs
      exact Or.inl (hs ▸ hjudge ..)
  · -- both outcomes of the test allocate a copy
    rename_i o kind old _
    dsimp only at hs
    split at hs <;> simp only [Option.some_inj] at hs <;> exact Or.inr ⟨o, kind, hs ▸ rfl⟩
  · split at hs <;> simp only [Option.some_inj] at hs <;> exact Or.inl (hs ▸ rfl)
  · split at hs <;> simp only [Option.some_inj] at hs <;> exact Or.inl (hs ▸ rfl)
  · contradiction

theorem uncovered_appendBegin (h : Inv B s) (hu : Uncovered s) {kind : Kind}
    (he : s'.copies = (appendBegin s t o kind).copies) : Uncovered s' := by
  refine hu.of_fields (fun n hn => ?_) fun n k hn hp hm => ?_
  · rw [he] at hn ⊢
    by_cases hk : n = s.numCopies
    · rw [hk, appendBegin_new] at hn
      contradiction
    · rw [appendBegin_copies hk] at hn ⊢
      exact ⟨hn, rfl, rfl⟩
  · have hlt := (h.chains.alloc k (h.chains.link n k hn hp).inserted).1
    rw [he, appendBegin_copies (by omega)]
    exact hm

theorem uncovered_inserts (h : Inv B s) (hu : Uncovered s) (hi : Inserts s s' k)
    (he : Entering s t k) : Uncovered s' := by
  intro n k' hn hc hp
  rw [(hi.fields n).2.2.2] at hp
  rw [Copy.Committed, (hi.fields n).2.2.1] at hc
  have hprev : (s'.copies k').wrtClkPrev = (s.copies k').wrtClkPrev := by
    by_cases hk : k' = k
    · rw [hk, hi.self]
    · rw [hi.other k' hk]
  rw [hprev]
  rcases hi.cases hn with rfl | ⟨-, hn, -⟩
  · -- the new head covers the old one
    rw [he.pCopy] at hp
    exact (h.chains.head _ k' hp).2.2
  · exact hu n k' hn hc hp

theorem uncovered_stamps (h : Inv B s) (hu : Uncovered s) {W : ℕ} (hst : Stamps s s' k W)
    (hW : W < maxVersion) : Uncovered s' := by
  intro n k' hn hc hp
  rw [(hst.fields n).1] at hn
  rw [hst.pCopy_eq hn] at hp
  have hnk : n ≠ k := by
    rintro rfl
    exact hc (by rw [Copy.Committed, hst.self.1]; exact hW.ne)
  rw [Copy.Committed, hst.wrtClk hnk] at hc
  rw [hst.prev_eq h.chains hn hp hnk]
  exact hu n k' hn hc hp

theorem uncovered_commitStep (h : Inv B s) (hu : Uncovered s) {v : ℕ}
    (hs : commitStep B s t v = some s') : Uncovered s' := by
  have hp := (h.threads t).pc
  simp only [commitStep] at hs
  split at hs
  · rename_i k ks hpc
    split at hs
    · -- `wrt_clk_prev` of the next copy to insert
      rw [Option.some_inj] at hs
      subst hs
      refine hu.of_fields (fun n hn => ?_) fun n k' _ _ hm => ?_
      · by_cases hnk : n = k
        · subst hnk
          simp only [State.setPc, State.setThread, setCopy_copies, if_true] at hn ⊢
          exact ⟨hn, trivial, trivial⟩
        · simp only [State.setPc, State.setThread, setCopy_copies, if_neg hnk] at hn ⊢
          exact ⟨hn, trivial, trivial⟩
      · by_cases hk : k' = k
        · simp [State.setPc, State.setThread, hk]
        · simpa [State.setPc, State.setThread, hk] using hm
    · exact hu.of_copies (by rw [← Option.some_inj.mp hs]; rfl)
    · exact hu.of_copies (by rw [← Option.some_inj.mp hs]; rfl)
  · -- the copy is not in the chain yet
    rename_i k old ks hpc
    rw [hpc] at hp
    have hins := hp.1.moving.waiting k List.mem_cons_self
    rw [Option.some_inj] at hs
    subst hs
    refine hu.of_fields (fun n hn => ?_) fun n k' _ _ hm => ?_
    · by_cases hnk : n = k
      · simp [State.setPc, State.setThread, hnk, hins] at hn
      · simp only [State.setPc, State.setThread, setCopy_copies, if_neg hnk] at hn ⊢
        exact ⟨hn, trivial, trivial⟩
    · by_cases hk : k' = k
      · simpa [State.setPc, State.setThread, hk] using hk ▸ hm
      · simpa [State.setPc, State.setThread, hk] using hm
  · rename_i k old ks hpc
    split at hs
    · rename_i heq
      rw [← heq] at hpc
      rw [Option.some_inj] at hs
      subst hs
      exact (uncovered_inserts h hu inserts_moveCas (h.entering hpc)).of_copies rfl
    · exact hu.of_copies (by rw [← Option.some_inj.mp hs]; rfl)
  · split at hs
    · exact hu.of_copies (by rw [← Option.some_inj.mp hs]; rfl)
    · contradiction
  · obtain ⟨w, -, rfl⟩ := Option.map_eq_some_iff.mp hs
    exact hu.of_copies rfl
  · obtain ⟨w, -, rfl⟩ := Option.map_eq_some_iff.mp hs
    exact hu.of_copies rfl
  · rename_i W k ks hpc
    rw [hpc] at hp
    rw [Option.some_inj] at hs
    subst hs
    exact (uncovered_stamps h hu (h.stamps hpc).2 hp.2.2.2.2.2).of_copies rfl
  · exact hu.of_copies (by rw [← Option.some_inj.mp hs]; rfl)
  · contradiction

theorem uncovered_step (h : Inv B s) (hu : Uncovered s) {a : Op} (hs : step B s a = some s') :
    Uncovered s' := by
  match a with
  | .lockStep t =>
    rcases lockStep_copies hs with he | ⟨o, kind, he⟩
    · exact hu.of_copies he
    · exact uncovered_appendBegin h hu he
  | .commitStep t v => exact uncovered_commitStep h hu hs
  | .free t k =>
    simp only [step, Option.ite_none_right_eq_some, Option.some_inj] at hs
    obtain ⟨-, rfl⟩ := hs
    refine hu.of_fields (fun n hn => ?_) fun n k' _ _ hm => ?_
    · by_cases hnk : n = k
      · subst hnk
        simp only [setCopy_copies, if_true] at hn ⊢
        exact ⟨hn, trivial, trivial⟩
      · simp only [setCopy_copies, if_neg hnk] at hn ⊢
        exact ⟨hn, trivial, trivial⟩
    · by_cases hk : k' = k
      · simpa [hk] using hk ▸ hm
      · simpa [hk] using hm
  | .begin t v | .lock t o kind | .endTx t | .abort t | .detach k =>
    simp only [step, Option.ite_none_right_eq_some, Option.some_inj] at hs
    obtain ⟨-, rfl⟩ := hs
    exact hu.of_copies rfl

/-- A path along the chain of an object is in order. -/
theorem Path.newer (h : Chains B s) (hu : Uncovered s) {p q : Option ℕ} {ks : List ℕ}
    (hp : Path s p ks q) (hin : ∀ k, p = some k → InChain s o k) :
    ks.IsChain (Newer B s) ∧ ∀ k ∈ ks, (s.copies k).obj = o := by
  induction hp with
  | nil p => exact ⟨.nil, by simp⟩
  | @cons k ks q hp ih =>
    have hk := hin k rfl
    obtain ⟨hins, hobj⟩ := h.inserted_of_inChain hk
    obtain ⟨h1, h2⟩ := ih fun k' hk' => .older hk hk'
    refine ⟨?_, fun k' hk' => ?_⟩
    · rcases ks with _ | ⟨k', ks⟩
      · exact .singleton k
      · rw [List.isChain_cons_cons]
        refine ⟨?_, h1⟩
        generalize hpk : (s.copies k).pCopy = p at hp
        rcases hp with _ | _
        have hl := h.link k k' hins hpk
        exact ⟨hl.committed, hl.gap, fun _ => hl.next, hl.prev, fun hn => hu k k' hins hn hpk⟩
    · rcases List.mem_cons.mp hk' with rfl | hk'
      · exact hobj
      · exact h2 k' hk'

/-- In every state of every run the copies of an object along its chain satisfy the
invariant, as far as one follows them. -/
theorem liveChain_of_reachable (h : Reachable B s) {ks : List ℕ} {q : Option ℕ}
    (hp : Path s (s.pCopy o) ks q) : LiveChain B s o ks q := by
  have hinv : Inv B s ∧ Uncovered s := by
    refine Run.Reach.invariant (I := fun s => Inv B s ∧ Uncovered s) ?_ ?_ h
    · rintro _ rfl
      exact ⟨inv_initial, fun n k hn => absurd hn (by simp [initial])⟩
    · intro s a s' hi _ hs
      exact ⟨inv_step hi.1 hs, uncovered_step hi.1 hi.2 hs⟩
  obtain ⟨hi, hu⟩ := hinv
  obtain ⟨hnewer, hobj⟩ := hp.newer hi.chains hu fun k hk => .head hk
  exact ⟨hp, hobj, fun k hk => (hi.chains.head o k hk).2.2, hnewer⟩

end Reachable

/-! ### The two tests -/

/-- On every version chain the test of the three clocks agrees with the search, and
at most one copy is at the borderline.  When the whole chain is there, the search
returns. -/
theorem borderline_iff_getCkptChs {B o ckptSClk lastCkptClk : ℕ} {s : State} {ks : List ℕ}
    {q : Option ℕ} (h : LiveChain B s o ks q) {fuel : ℕ} (hf : ks.length ≤ fuel) :
    (∀ k ∈ ks, (s.copies k).Committed → ¬ ltClock B (s.copies k).wrtClk lastCkptClk →
      (isAtBorderline B (s.copies k) ckptSClk lastCkptClk ↔
        getCkptChs B s k ckptSClk lastCkptClk fuel = some (some k))) ∧
    (∀ k ∈ ks, ∀ k' ∈ ks, (s.copies k).Committed → (s.copies k').Committed →
      ¬ ltClock B (s.copies k).wrtClk lastCkptClk →
      ¬ ltClock B (s.copies k').wrtClk lastCkptClk →
      isAtBorderline B (s.copies k) ckptSClk lastCkptClk →
      isAtBorderline B (s.copies k') ckptSClk lastCkptClk → k = k') ∧
    (q = none → ∀ k ∈ ks, ∃ r, getCkptChs B s k ckptSClk lastCkptClk fuel = some r) := by
  have hiff : ∀ k ∈ ks, (s.copies k).Committed →
      ¬ ltClock B (s.copies k).wrtClk lastCkptClk →
      (isAtBorderline B (s.copies k) ckptSClk lastCkptClk ↔
        getCkptChs B s k ckptSClk lastCkptClk fuel = some (some k)) := by
    intro k hk hcom hL
    have hobj := h.obj k hk
    obtain ⟨pre, post, rfl⟩ := List.append_of_mem hk
    rw [getCkptChs, hobj]
    rw [ckptLoop_eq_iff h.path h.newer hcom hL
      (by rw [List.length_append, List.length_cons] at hf; omega)]
    refine isAtBorderline_iff ?_ h.newer hL
    rintro rfl
    -- without a newer version the copy is the head of the chain
    have hp := h.path
    generalize hpo : s.pCopy o = p at hp
    rcases hp with _ | hp
    exact h.head k hpo
  refine ⟨hiff, ?_, ?_⟩
  · intro k hk k' hk' hc hc' hL hL' hb hb'
    have h1 := (hiff k hk hc hL).mp hb
    have h2 := (hiff k' hk' hc' hL').mp hb'
    rw [getCkptChs, h.obj k hk] at h1
    rw [getCkptChs, h.obj k' hk', h1] at h2
    simpa using h2
  · rintro rfl k hk
    rw [getCkptChs, h.obj k hk]
    exact ckptLoop_isSome h.path hf

/-- Two committed versions of the object 5 and one that is being committed; the
oldest one is at the borderline of a checkpoint at 160. -/
theorem borderline_iff_getCkptChs_three :
    ∃ s, Reachable 10 s ∧ LiveChain 10 s 5 [2, 1, 0] none ∧ ¬ (s.copies 2).Committed ∧
      isAtBorderline 10 (s.copies 0) 160 100 ∧
      getCkptChs 10 s 0 160 100 3 = some (some 0) := by
  have hd : (Run.exec (step 10) Run.any initial
      ([.begin 0 100, .lock 0 5 .copy, .lockStep 0, .lockStep 0, .lockStep 0, .lockStep 0,
        .endTx 0, .commitStep 0 0, .commitStep 0 0, .commitStep 0 0, .commitStep 0 130,
        .commitStep 0 0, .commitStep 0 0, .commitStep 0 0, .commitStep 0 0] ++
      [.begin 1 150, .lock 1 5 .copy, .lockStep 1, .lockStep 1, .lockStep 1, .lockStep 1,
        .lockStep 1, .endTx 1, .commitStep 1 0, .commitStep 1 0, .commitStep 1 0,
        .commitStep 1 180, .commitStep 1 0, .commitStep 1 0, .commitStep 1 0, .commitStep 1 0] ++
      [.begin 0 200, .lock 0 5 .copy, .lockStep 0, .lockStep 0, .lockStep 0, .lockStep 0,
        .lockStep 0, .endTx 0, .commitStep 0 0, .commitStep 0 0, .commitStep 0 0])).map (fun s =>
        decide (s.pCopy 5 = some 2 ∧ (s.copies 2).pCopy = some 1 ∧ (s.copies 1).pCopy = some 0 ∧
          (s.copies 0).pCopy = none ∧ (s.copies 2).wrtClk = maxVersion ∧
          (s.copies 0).wrtClk = 130 ∧ isAtBorderline 10 (s.copies 0) 160 100)) = some true := by
    decide +kernel
  obtain ⟨s, hr, h1, h2, h3, h4, h5, h6, h7⟩ : ∃ s, Reachable 10 s ∧ _ :=
    Run.Reach.exists_of_exec (.init rfl) hd
  have hpath : Path s (s.pCopy 5) [2, 1, 0] none := by
    rw [h1]
    refine .cons ?_
    rw [h2]
    refine .cons ?_
    rw [h3]
    refine .cons ?_
    rw [h4]
    exact .nil none
  have hlive := liveChain_of_reachable hr hpath
  have hiff : isAtBorderline 10 (s.copies 0) 160 100 ↔
      getCkptChs 10 s 0 160 100 3 = some (some 0) :=
    (borderline_iff_getCkptChs hlive (Nat.le_refl 3)).1 0 (by simp)
      (by rw [Copy.Committed, h6]; decide) (by rw [h6]; decide)
  exact ⟨s, hr, hlive, not_not_intro h5, h7, hiff.mp h7⟩

end TimeStone.VersionChain
