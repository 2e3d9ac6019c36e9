/-
Transactions keep the version chains.

A transaction locks an object only when it sees the newest version of it, and reads the
clock of its commit after that, so a commit puts its versions in front of their chains.
`core_commit` goes through the copies of the write set one by one; `Core` says which of
them are left.
-/
import TimeStone.System.Chain

namespace TimeStone.System

variable {α β : Type*} {B t t' W k o : ℕ} {s s' : State α β} {c : List ℕ}

/-- When no commit is under way, it does not matter whose it is. -/
theorem Core.retag (h : Core B s t W []) (t' W' : ℕ) : Core B s t' W' [] := by
  have hheld : ∀ {t₁ k}, s.Held t' [] t₁ k → s.Held t [] t₁ k := by
    rintro t₁ k (hk | ⟨-, hk⟩)
    · exact Or.inl hk
    · cases hk
  exact { h with
    locks := {
      lt := fun t₁ k hk => h.locks.lt t₁ k (hheld hk)
      tx := fun t₁ k hk => h.locks.tx t₁ k (hheld hk)
      opn := fun t₁ k hk => h.locks.opn t₁ k (hheld hk)
      lock := fun t₁ k hk => h.locks.lock t₁ k (hheld hk)
      owner := fun t₁ t₂ k h₁ h₂ => h.locks.owner t₁ t₂ k (hheld h₁) (hheld h₂)
      nodup := h.locks.nodup
      newest := fun t₁ k hk => h.locks.newest t₁ k (hheld hk)
      freed := h.locks.freed }
    members := {
      old := h.members.old
      copy := fun t₁ w hw k hk =>
        ⟨(h.member hw hk).1, Or.inr (h.member hw hk).2⟩ } }

theorem core_start {v : ℕ} (h : Core B s t W []) (hn : ¬ s.InTx t') (hv : s.Reading B v) :
    Core B (s.start t' v) t W [] := by
  have hne : ∀ t₁ k, s.Held t [] t₁ k → t₁ ≠ t' := by
    rintro t₁ k hk rfl
    exact hn (h.locks.tx t₁ k hk)
  have hle : s.lastClk ≤ max s.lastClk v := le_max_left _ _
  refine { h with
    clocks := {
      max := max_lt h.clocks.max hv.2
      qp0 := h.clocks.qp0.imp_right fun hq => le_trans hq hle
      ckpt := h.clocks.ckpt
      nvm := h.clocks.nvm
      wait := fun clk hclk => (h.clocks.wait clk hclk).imp_left fun hc => le_trans hc hle }
    locks := { h.locks with tx := fun t₁ k hk => ?_, newest := fun t₁ k hk => ?_ }
    chains := { h.chains with
      mem := fun o k hk => ?_
      links := fun o => (h.chains.links o).mono fun _ _ => ⟨rfl, rfl, rfl, rfl, id⟩ }
    versions := { h.versions with }
    members := { h.members with old := fun t₁ w hw => le_trans (h.members.old t₁ w hw) hle } }
  · show Function.update s.runCnt t' _ t₁ % 2 = 1
    rw [Function.update_of_ne (hne t₁ k hk)]
    exact h.locks.tx t₁ k hk
  · show ∀ j ∈ _, ltClock B _ (Function.update s.localClk t' v t₁)
    rw [Function.update_of_ne (hne t₁ k hk)]
    exact h.locks.newest t₁ k hk
  · obtain ⟨h1, h2, h3, h4⟩ := h.chains.mem o k hk
    exact ⟨h1, h2, h3, le_trans h4 hle⟩

/-- The newest version of an object that may be locked is in the snapshot. -/
theorem Core.newest_of_mayLock (h : Core B s t W c) (hq : s.qpClks.qp0 ≤ s.localClk t')
    (hm : s.MayLock B t' o) :
    ∀ j ∈ (s.hist o).head?, ltClock B (s.copies j).wrtClk (s.localClk t') := by
  intro j hj
  rcases (h.chains.top o j hj).2 with ⟨hp, -⟩ | ⟨-, hd⟩
  · exact hm.2 j hp
  · have := (h.versions.detached o j (List.mem_of_mem_head? hj) hd).1
    rw [ltClock_iff] at *
    omega

theorem core_lock {kind : Kind} (h : Core B s t W []) (htx : s.InTx t')
    (hq : s.qpClks.qp0 ≤ s.localClk t') (hkind : kind ≠ .free) (hm : s.MayLock B t' o) :
    Core B (s.lock t' o kind) t W [] := by
  -- what is known about the copies does not change
  have hcopies : ∀ k < s.numCopies, (s.lock t' o kind).copies k = s.copies k :=
    fun k hk => Function.update_of_ne (by omega) _ _
  have hprev : ∀ k < s.numCopies, (s.lock t' o kind).wrtClkPrev k = s.wrtClkPrev k :=
    fun k hk => Function.update_of_ne (by omega) _ _
  have hstatus : ∀ k < s.numCopies, (s.lock t' o kind).status k = s.status k :=
    fun k hk => Function.update_of_ne (by omega) _ _
  have hhist : ∀ {o k}, k ∈ s.hist o → k < s.numCopies := fun hk => (h.chains.mem _ _ hk).1
  have hself : ((s.lock t' o kind).copies s.numCopies).obj = o ∧
      ((s.lock t' o kind).copies s.numCopies).wrtClk = maxVersion ∧
      ((s.lock t' o kind).copies s.numCopies).kind = kind ∧
      (s.lock t' o kind).status s.numCopies = .none ∧
      (s.lock t' o kind).wrtClkPrev s.numCopies = 0 := by
    simp [State.lock]
  -- the new copy is the only new one that is held
  have hheld : ∀ {t₁ k}, (s.lock t' o kind).Held t [] t₁ k →
      t₁ = t' ∧ k = s.numCopies ∨ s.Held t [] t₁ k ∧ k < s.numCopies := by
    rintro t₁ k (hk | ⟨-, hk⟩)
    · change k ∈ Function.update s.ws t' _ t₁ at hk
      by_cases he : t₁ = t'
      · subst he
        rw [Function.update_self, List.mem_append, List.mem_singleton] at hk
        rcases hk with hk | hk
        · exact Or.inr ⟨Or.inl hk, h.locks.lt t₁ k (Or.inl hk)⟩
        · exact Or.inl ⟨rfl, hk⟩
      · rw [Function.update_of_ne he] at hk
        exact Or.inr ⟨Or.inl hk, h.locks.lt t₁ k (Or.inl hk)⟩
    · cases hk
  have hlock : ∀ {k}, s.pLock (s.copies k).obj = some k →
      (s.lock t' o kind).pLock (s.copies k).obj = some k := by
    intro k hk
    have hne : (s.copies k).obj ≠ o := by
      intro he
      rw [he, hm.1] at hk
      cases hk
    exact (Function.update_of_ne hne _ _).trans hk
  refine {
    clocks := { h.clocks with }
    locks := {
      lt := fun t₁ k hk => ?_
      tx := fun t₁ k hk => ?_
      opn := fun t₁ k hk => ?_
      lock := fun t₁ k hk => ?_
      owner := fun t₁ t₂ k hk₁ hk₂ => ?_
      nodup := fun t₁ => ?_
      newest := fun t₁ k hk => ?_
      freed := fun k hk hf => ?_ }
    chains := {
      mem := fun o' k hk => ?_
      sorted := fun o' => ?_
      links := fun o' => ?_
      top := fun o' k hk => ?_
      nil := h.chains.nil }
    versions := {
      detached := fun o' k hk => ?_
      entry := h.versions.entry }
    members := { old := h.members.old, copy := fun t₁ w hw k hk => ?_ } }
  · show k < s.numCopies + 1
    rcases hheld hk with ⟨-, rfl⟩ | ⟨-, hlt⟩
    · exact Nat.lt_succ_self _
    · exact Nat.lt_succ_of_lt hlt
  · rcases hheld hk with ⟨rfl, -⟩ | ⟨hk, -⟩
    · exact htx
    · exact h.locks.tx t₁ k hk
  · rcases hheld hk with ⟨-, rfl⟩ | ⟨hk, hlt⟩
    · obtain ⟨-, h2, h3, h4, h5⟩ := hself
      exact ⟨h2, by rw [h3]; exact hkind, h4, h5⟩
    · rw [hcopies k hlt, hprev k hlt, hstatus k hlt]
      exact h.locks.opn t₁ k hk
  · rcases hheld hk with ⟨-, rfl⟩ | ⟨hk, hlt⟩
    · rw [hself.1]
      exact Function.update_self _ _ _
    · rw [hcopies k hlt]
      exact hlock (h.locks.lock t₁ k hk)
  · rcases hheld hk₁ with ⟨rfl, rfl⟩ | ⟨hk₁, hlt₁⟩
    · rcases hheld hk₂ with ⟨rfl, -⟩ | ⟨-, hlt₂⟩
      · rfl
      · exact absurd hlt₂ (lt_irrefl _)
    · rcases hheld hk₂ with ⟨-, rfl⟩ | ⟨hk₂, -⟩
      · exact absurd hlt₁ (lt_irrefl _)
      · exact h.locks.owner t₁ t₂ k hk₁ hk₂
  · show (Function.update s.ws t' (s.ws t' ++ [s.numCopies]) t₁).Nodup
    by_cases he : t₁ = t'
    · subst he
      rw [Function.update_self]
      refine List.nodup_append.mpr ⟨h.locks.nodup t₁, by simp, ?_⟩
      intro k hk k' hk' he
      rw [List.mem_singleton] at hk'
      have := h.locks.lt t₁ k (Or.inl hk)
      omega
    · rw [Function.update_of_ne he]
      exact h.locks.nodup t₁
  · intro j hj
    rcases hheld hk with ⟨rfl, rfl⟩ | ⟨hk, hlt⟩
    · rw [hself.1] at hj
      rw [hcopies j (hhist (List.mem_of_mem_head? hj))]
      exact h.newest_of_mayLock hq hm j hj
    · rw [hcopies k hlt] at hj
      rw [hcopies j (hhist (List.mem_of_mem_head? hj))]
      exact h.locks.newest t₁ k hk j hj
  · rcases Nat.lt_succ_iff_lt_or_eq.mp hk with hlt | rfl
    · rw [hcopies k hlt] at hf ⊢
      obtain ⟨h1, h2, h3⟩ := h.locks.freed k hlt hf
      refine ⟨hlock h1, h2, fun j hj => ?_⟩
      rw [hcopies j (hhist hj)]
      exact h3 j hj
    · rw [hself.2.2.1] at hf
      exact absurd hf hkind
  · obtain ⟨h1, h2⟩ := h.chains.mem o' k hk
    rw [hcopies k h1]
    exact ⟨Nat.lt_succ_of_lt h1, h2⟩
  · refine (h.chains.sorted o').imp_of_mem fun {k j} hk hj hlt => ?_
    rw [hcopies k (hhist hk), hcopies j (hhist hj)]
    exact hlt
  · refine (h.chains.links o').mono fun k hk => ?_
    rw [hcopies k (hhist hk), hprev k (hhist hk), hstatus k (hhist hk)]
    exact ⟨rfl, rfl, rfl, rfl, id⟩
  · rw [hprev k (hhist (List.mem_of_mem_head? hk)), hstatus k (hhist (List.mem_of_mem_head? hk))]
    exact h.chains.top o' k hk
  · rw [hcopies k (hhist hk), hstatus k (hhist hk)]
    exact h.versions.detached o' k hk
  · obtain ⟨h1, h2⟩ := h.members.copy t₁ w hw k hk
    rw [hcopies k h1, hprev k h1]
    exact ⟨Nat.lt_succ_of_lt h1, h2⟩

theorem core_write {a : α} (h : Core B s t W c) : Core B (s.write k a) t W c := by
  -- only the content changes
  have hcopies : ∀ j, ((s.write k a).copies j).obj = (s.copies j).obj ∧
      ((s.write k a).copies j).kind = (s.copies j).kind ∧
      ((s.write k a).copies j).wrtClk = (s.copies j).wrtClk ∧
      ((s.write k a).copies j).pCopy = (s.copies j).pCopy ∧
      ((s.write k a).copies j).wrtClkNext = (s.copies j).wrtClkNext := by
    intro j
    show (Function.update s.copies k _ j).obj = _ ∧ (Function.update s.copies k _ j).kind = _ ∧
      (Function.update s.copies k _ j).wrtClk = _ ∧ (Function.update s.copies k _ j).pCopy = _ ∧
      (Function.update s.copies k _ j).wrtClkNext = _
    by_cases he : j = k
    · subst he
      rw [Function.update_self]
      exact ⟨rfl, rfl, rfl, rfl, rfl⟩
    · rw [Function.update_of_ne he]
      exact ⟨rfl, rfl, rfl, rfl, rfl⟩
  have hobj := fun j => (hcopies j).1
  have hkind := fun j => (hcopies j).2.1
  have hwrt := fun j => (hcopies j).2.2.1
  refine {
    clocks := { h.clocks with }
    locks := { h.locks with
      opn := fun t₁ j hj => ?_
      lock := fun t₁ j hj => ?_
      newest := fun t₁ j hj i hi => ?_
      freed := fun j hj hf => ?_ }
    chains := { h.chains with
      mem := fun o' j hj => ?_
      sorted := fun o' => ?_
      links := fun o' => ?_ }
    versions := { h.versions with detached := fun o' j hj => ?_ }
    members := { old := h.members.old, copy := fun t₁ w hw j hj => ?_ } }
  · rw [hwrt, hkind]
    exact h.locks.opn t₁ j hj
  · rw [hobj]
    exact h.locks.lock t₁ j hj
  · rw [hobj] at hi
    rw [hwrt]
    exact h.locks.newest t₁ j hj i hi
  · rw [hkind] at hf
    rw [hobj, hwrt]
    obtain ⟨h1, h2, h3⟩ := h.locks.freed j hj hf
    refine ⟨h1, h2, fun i hi => ?_⟩
    rw [hwrt]
    exact h3 i hi
  · rw [hobj, hkind, hwrt]
    exact h.chains.mem o' j hj
  · refine (h.chains.sorted o').imp fun {i j} hlt => ?_
    rw [hwrt, hwrt]
    exact hlt
  · refine (h.chains.links o').mono fun j _ => ?_
    exact ⟨(hcopies j).2.2.2.1, (hcopies j).2.2.2.2, hwrt j, rfl, id⟩
  · rw [hwrt]
    exact h.versions.detached o' j hj
  · rw [hobj, hkind, hwrt]
    exact h.members.copy t₁ w hw j hj

/-- The thread leaves its transaction with nothing held. -/
theorem core_stop (h : Core B s t W []) (hws : s.ws t' = []) : Core B (s.stop t') t W [] := by
  refine { h with
    clocks := { h.clocks with }
    locks := { h.locks with tx := fun t₁ k hk => ?_ }
    chains := { h.chains with
      links := fun o => (h.chains.links o).mono fun _ _ => ⟨rfl, rfl, rfl, rfl, id⟩ }
    versions := { h.versions with }
    members := { h.members with } }
  have hne : t₁ ≠ t' := by
    rintro rfl
    rcases hk with hk | ⟨-, hk⟩
    · change k ∈ s.ws t₁ at hk
      rw [hws] at hk
      cases hk
    · cases hk
  show Function.update s.runCnt t' _ t₁ % 2 = 1
  rw [Function.update_of_ne hne]
  exact h.locks.tx t₁ k hk

theorem core_unlockAbort (h : Core B s t W []) : Core B (s.unlockAbort t') t W [] := by
  have hheld : ∀ {t₁ k}, (s.unlockAbort t').Held t [] t₁ k → s.Held t [] t₁ k ∧ k ∉ s.ws t' := by
    rintro t₁ k (hk | ⟨-, hk⟩)
    · change k ∈ Function.update s.ws t' [] t₁ at hk
      by_cases he : t₁ = t'
      · subst he
        rw [Function.update_self] at hk
        cases hk
      · rw [Function.update_of_ne he] at hk
        exact ⟨Or.inl hk, fun hk' => he (h.locks.owner t₁ t' k (Or.inl hk) (Or.inl hk'))⟩
    · cases hk
  have hlock : ∀ {o k}, s.pLock o = some k → k ∉ s.ws t' → (s.unlockAbort t').pLock o = some k := by
    intro o k hk hn
    simp [State.unlockAbort, hk, hn]
  refine { h with
    clocks := { h.clocks with }
    locks := {
      lt := fun t₁ k hk => h.locks.lt t₁ k (hheld hk).1
      tx := fun t₁ k hk => h.locks.tx t₁ k (hheld hk).1
      opn := fun t₁ k hk => h.locks.opn t₁ k (hheld hk).1
      lock := fun t₁ k hk => hlock (h.locks.lock t₁ k (hheld hk).1) (hheld hk).2
      owner := fun t₁ t₂ k h₁ h₂ => h.locks.owner t₁ t₂ k (hheld h₁).1 (hheld h₂).1
      nodup := fun t₁ => ?_
      newest := fun t₁ k hk => h.locks.newest t₁ k (hheld hk).1
      freed := fun k hk hf => ?_ }
    chains := { h.chains with
      links := fun o => (h.chains.links o).mono fun _ _ => ⟨rfl, rfl, rfl, rfl, id⟩ }
    versions := { h.versions with }
    members := { h.members with } }
  · show (Function.update s.ws t' [] t₁).Nodup
    by_cases he : t₁ = t'
    · rw [he, Function.update_self]
      exact List.nodup_nil
    · rw [Function.update_of_ne he]
      exact h.locks.nodup t₁
  · obtain ⟨h1, h2, h3⟩ := h.locks.freed k hk hf
    exact ⟨hlock h1 fun hk' => (h.locks.opn t' k (Or.inl hk')).2.1 hf, h2, h3⟩

/-- The commit starts: the whole write set is left. -/
theorem core_commitSet {info : β} (h : Core B s t W []) (hv : s.Reading B W) :
    Core B (s.commitSet t W info) t W (s.ws t) := by
  have hheld : ∀ {t₁ k}, (s.commitSet t W info).Held t (s.ws t) t₁ k ↔ s.Held t [] t₁ k := by
    intro t₁ k
    show k ∈ Function.update s.ws t [] t₁ ∨ t₁ = t ∧ k ∈ s.ws t ↔ k ∈ s.ws t₁ ∨ t₁ = t ∧ k ∈ []
    by_cases he : t₁ = t
    · subst he
      simp
    · simp [he]
  have hle : s.lastClk ≤ max s.lastClk W := le_max_left _ _
  have hsets : ∀ t₁, ∀ w ∈ (s.commitSet t W info).tvOld t₁ ++ (s.commitSet t W info).tvNew t₁,
      w ∈ s.tvOld t₁ ++ s.tvNew t₁ ∨ t₁ = t ∧ w = ⟨W, s.ws t⟩ := by
    intro t₁ w hw
    change w ∈ s.tvOld t₁ ++ Function.update s.tvNew t _ t₁ at hw
    by_cases he : t₁ = t
    · subst he
      rw [Function.update_self, ← List.append_assoc] at hw
      rcases List.mem_append.mp hw with hw | hw
      · exact Or.inl hw
      · exact Or.inr ⟨rfl, List.mem_singleton.mp hw⟩
    · rw [Function.update_of_ne he] at hw
      exact Or.inl hw
  refine {
    clocks := {
      max := max_lt h.clocks.max hv.2
      qp0 := h.clocks.qp0.imp_right fun hq => le_trans hq hle
      ckpt := h.clocks.ckpt
      nvm := h.clocks.nvm
      wait := fun clk hclk => (h.clocks.wait clk hclk).imp_left fun hc => le_trans hc hle }
    locks := {
      lt := fun t₁ k hk => h.locks.lt t₁ k (hheld.mp hk)
      tx := fun t₁ k hk => h.locks.tx t₁ k (hheld.mp hk)
      opn := fun t₁ k hk => h.locks.opn t₁ k (hheld.mp hk)
      lock := fun t₁ k hk => h.locks.lock t₁ k (hheld.mp hk)
      owner := fun t₁ t₂ k h₁ h₂ => h.locks.owner t₁ t₂ k (hheld.mp h₁) (hheld.mp h₂)
      nodup := fun t₁ => ?_
      newest := fun t₁ k hk => h.locks.newest t₁ k (hheld.mp hk)
      freed := h.locks.freed }
    chains := { h.chains with
      mem := fun o k hk => ?_
      links := fun o => (h.chains.links o).mono fun _ _ => ⟨rfl, rfl, rfl, rfl, id⟩ }
    versions := { h.versions with }
    members := { old := fun t₁ w hw => ?_, copy := fun t₁ w hw k hk => ?_ } }
  · show (Function.update s.ws t [] t₁).Nodup
    by_cases he : t₁ = t
    · rw [he, Function.update_self]
      exact List.nodup_nil
    · rw [Function.update_of_ne he]
      exact h.locks.nodup t₁
  · obtain ⟨h1, h2, h3, h4⟩ := h.chains.mem o k hk
    exact ⟨h1, h2, h3, le_trans h4 hle⟩
  · show w.wrtClk ≤ max s.lastClk W
    rcases hsets t₁ w hw with hw | ⟨-, rfl⟩
    · exact le_trans (h.members.old t₁ w hw) hle
    · exact le_max_right _ _
  · rcases hsets t₁ w hw with hw | ⟨rfl, rfl⟩
    · exact ⟨(h.member hw hk).1, Or.inr (h.member hw hk).2⟩
    · exact ⟨h.locks.lt t₁ k (Or.inl hk), Or.inl ⟨rfl, hk, rfl⟩⟩

/-- What is known about the copy `k` that is committed next. -/
structure Next (B : ℕ) (s : State α β) (t W k : ℕ) (ks : List ℕ) : Prop where
  self : k < s.numCopies ∧ (s.copies k).kind ≠ .free ∧ s.status k = .none ∧
    s.wrtClkPrev k = 0 ∧ s.pLock (s.copies k).obj = some k
  held : ∀ {t' j}, s.Held t ks t' j → s.Held t (k :: ks) t' j ∧ j ≠ k
  obj : ∀ {t' j}, s.Held t ks t' j → (s.copies j).obj ≠ (s.copies k).obj
  freed : ∀ {j}, j < s.numCopies → (s.copies j).kind = .free →
    j ≠ k ∧ (s.copies j).obj ≠ (s.copies k).obj
  version : ∀ {o j}, j ∈ s.hist o → j ≠ k
  logged : ∀ {t' w}, w ∈ s.tvOld t' ++ s.tvNew t' → k ∈ w.copies → w.wrtClk = W
  other : ∀ {t' w j}, w ∈ s.tvOld t' ++ s.tvNew t' → j ∈ w.copies → j ≠ k → j < s.numCopies ∧
    (t' = t ∧ j ∈ ks ∧ w.wrtClk = W ∨ (s.copies j).wrtClk = w.wrtClk ∧
      ((s.copies j).kind = .copy → j ∈ s.hist (s.copies j).obj) ∧
      ((s.copies j).kind = .const → s.wrtClkPrev j = 0))
  below : ∀ {j}, j ∈ s.hist (s.copies k).obj → ltClock B (s.copies j).wrtClk (s.localClk t)

theorem Core.next {ks : List ℕ} (h : Core B s t W (k :: ks)) (hws : s.ws t = [])
    (hnd : (k :: ks).Nodup) : Next B s t W k ks := by
  have hk : s.Held t (k :: ks) t k := Or.inr ⟨rfl, List.mem_cons_self⟩
  obtain ⟨hmax, hkind, hst, hprev⟩ := h.locks.opn t k hk
  have hlock := h.locks.lock t k hk
  have hlast := h.clocks.max
  have hheld : ∀ {t' j}, s.Held t ks t' j → s.Held t (k :: ks) t' j ∧ j ≠ k := by
    rintro t' j (hj | ⟨rfl, hj⟩)
    · refine ⟨Or.inl hj, ?_⟩
      rintro rfl
      -- its owner has an empty write set
      rw [h.locks.owner t' t j (Or.inl hj) hk, hws] at hj
      cases hj
    · refine ⟨Or.inr ⟨rfl, List.mem_cons_of_mem _ hj⟩, ?_⟩
      rintro rfl
      exact (List.nodup_cons.mp hnd).1 hj
  -- two locked objects are different
  have hobj : ∀ {j}, s.pLock (s.copies j).obj = some j → j ≠ k →
      (s.copies j).obj ≠ (s.copies k).obj := by
    intro j hj hne he
    rw [he, hlock, Option.some_inj] at hj
    exact hne hj.symm
  refine ⟨⟨h.locks.lt t k hk, hkind, hst, hprev, hlock⟩, hheld, ?_, ?_, ?_, ?_, ?_, ?_⟩
  · intro t' j hj
    exact hobj (h.locks.lock t' j (hheld hj).1) (hheld hj).2
  · intro j hlt hf
    have hne : j ≠ k := by
      rintro rfl
      exact hkind hf
    exact ⟨hne, hobj (h.locks.freed j hlt hf).1 hne⟩
  · rintro o j hj rfl
    have := (h.chains.mem o j hj).2.2.2
    omega
  · intro t' w hw hkw
    rcases (h.members.copy t' w hw k hkw).2 with hc | hc
    · exact hc.2.2
    · have h1 := h.members.old t' w hw
      have h2 := hc.1
      omega
  · intro t' w j hw hj hne
    refine (h.members.copy t' w hw j hj).imp_right (Or.imp_left ?_)
    rintro ⟨h1, h2, h3⟩
    exact ⟨h1, (List.mem_cons.mp h2).resolve_left hne, h3⟩
  · intro j hj
    obtain ⟨i, rest, hi⟩ := List.exists_cons_of_ne_nil (List.ne_nil_of_mem hj)
    have hnew := h.locks.newest t k hk i (by rw [hi]; rfl)
    have hs := h.chains.sorted (s.copies k).obj
    rw [hi] at hj hs
    rcases List.mem_cons.mp hj with rfl | hj
    · exact hnew
    · have := (List.pairwise_cons.mp hs).1 j hj
      rw [ltClock_iff] at *
      omega

theorem core_commitConst {ks : List ℕ} (h : Core B s t W (k :: ks)) (hn : Next B s t W k ks)
    (hkind : (s.copies k).kind ≠ .copy) : Core B (s.commitConst W k) t W ks := by
  have hcopies : ∀ {j}, j ≠ k → (s.commitConst W k).copies j = s.copies j :=
    fun hj => Function.update_of_ne hj _ _
  have hself : (s.commitConst W k).copies k = { s.copies k with wrtClk := W } :=
    Function.update_self _ _ _
  have hlock : ∀ {o}, o ≠ (s.copies k).obj → (s.commitConst W k).pLock o = s.pLock o :=
    fun ho => Function.update_of_ne ho _ _
  refine {
    clocks := { h.clocks with }
    locks := {
      lt := fun t₁ j hj => h.locks.lt t₁ j (hn.held hj).1
      tx := fun t₁ j hj => h.locks.tx t₁ j (hn.held hj).1
      opn := fun t₁ j hj => ?_
      lock := fun t₁ j hj => ?_
      owner := fun t₁ t₂ j h₁ h₂ => h.locks.owner t₁ t₂ j (hn.held h₁).1 (hn.held h₂).1
      nodup := h.locks.nodup
      newest := fun t₁ j hj i hi => ?_
      freed := fun j hj hf => ?_ }
    chains := { h.chains with
      mem := fun o j hj => ?_
      sorted := fun o => ?_
      links := fun o => ?_ }
    versions := { h.versions with detached := fun o j hj => ?_ }
    members := { old := h.members.old, copy := fun t₁ w hw j hj => ?_ } }
  · rw [hcopies (hn.held hj).2]
    exact h.locks.opn t₁ j (hn.held hj).1
  · rw [hcopies (hn.held hj).2, hlock (hn.obj hj)]
    exact h.locks.lock t₁ j (hn.held hj).1
  · rw [hcopies (hn.held hj).2] at hi
    rw [hcopies (hn.version (List.mem_of_mem_head? hi))]
    exact h.locks.newest t₁ j (hn.held hj).1 i hi
  · have hne : j ≠ k := by
      rintro rfl
      rw [hself] at hf
      exact hn.self.2.1 hf
    rw [hcopies hne] at hf ⊢
    rw [hlock (hn.freed hj hf).2]
    obtain ⟨h1, h2, h3⟩ := h.locks.freed j hj hf
    refine ⟨h1, h2, fun i hi => ?_⟩
    rw [hcopies (hn.version hi)]
    exact h3 i hi
  · rw [hcopies (hn.version hj)]
    exact h.chains.mem o j hj
  · refine (h.chains.sorted o).imp_of_mem fun {i j} hi hj hlt => ?_
    rw [hcopies (hn.version hi), hcopies (hn.version hj)]
    exact hlt
  · refine (h.chains.links o).mono fun j hj => ?_
    rw [hcopies (hn.version hj)]
    exact ⟨rfl, rfl, rfl, rfl, id⟩
  · rw [hcopies (hn.version hj)]
    exact h.versions.detached o j hj
  · by_cases hjk : j = k
    · subst hjk
      rw [hself]
      exact ⟨hn.self.1, Or.inr ⟨(hn.logged hw hj).symm, fun hc => absurd hc hkind,
        fun _ => hn.self.2.2.2.1⟩⟩
    · rw [hcopies hjk]
      exact hn.other hw hj hjk

theorem core_commitFree {ks : List ℕ} (h : Core B s t W (k :: ks)) (hn : Next B s t W k ks)
    (hW : s.localClk t < W) : Core B (s.commitFree W k) t W ks := by
  have hcopies : ∀ {j}, j ≠ k → (s.commitFree W k).copies j = s.copies j :=
    fun hj => Function.update_of_ne hj _ _
  have hself : (s.commitFree W k).copies k = { s.copies k with kind := .free, wrtClk := W } :=
    Function.update_self _ _ _
  refine {
    clocks := { h.clocks with }
    locks := {
      lt := fun t₁ j hj => h.locks.lt t₁ j (hn.held hj).1
      tx := fun t₁ j hj => h.locks.tx t₁ j (hn.held hj).1
      opn := fun t₁ j hj => ?_
      lock := fun t₁ j hj => ?_
      owner := fun t₁ t₂ j h₁ h₂ => h.locks.owner t₁ t₂ j (hn.held h₁).1 (hn.held h₂).1
      nodup := h.locks.nodup
      newest := fun t₁ j hj i hi => ?_
      freed := fun j hj hf => ?_ }
    chains := { h.chains with
      mem := fun o j hj => ?_
      sorted := fun o => ?_
      links := fun o => ?_ }
    versions := { h.versions with detached := fun o j hj => ?_ }
    members := { old := h.members.old, copy := fun t₁ w hw j hj => ?_ } }
  · rw [hcopies (hn.held hj).2]
    exact h.locks.opn t₁ j (hn.held hj).1
  · rw [hcopies (hn.held hj).2]
    exact h.locks.lock t₁ j (hn.held hj).1
  · rw [hcopies (hn.held hj).2] at hi
    rw [hcopies (hn.version (List.mem_of_mem_head? hi))]
    exact h.locks.newest t₁ j (hn.held hj).1 i hi
  · by_cases hjk : j = k
    · subst hjk
      rw [hself]
      refine ⟨hn.self.2.2.2.2, Function.update_self _ _ _, fun i hi => ?_⟩
      rw [hcopies (hn.version hi)]
      have := hn.below hi
      rw [ltClock_iff] at this
      show _ ≤ W
      omega
    · rw [hcopies hjk] at hf ⊢
      obtain ⟨h1, h2, h3⟩ := h.locks.freed j hj hf
      refine ⟨h1, (Function.update_of_ne (hn.freed hj hf).2 _ _).trans h2, fun i hi => ?_⟩
      rw [hcopies (hn.version hi)]
      exact h3 i hi
  · rw [hcopies (hn.version hj)]
    exact h.chains.mem o j hj
  · refine (h.chains.sorted o).imp_of_mem fun {i j} hi hj hlt => ?_
    rw [hcopies (hn.version hi), hcopies (hn.version hj)]
    exact hlt
  · refine (h.chains.links o).mono fun j hj => ?_
    rw [hcopies (hn.version hj)]
    exact ⟨rfl, rfl, rfl, rfl, id⟩
  · rw [hcopies (hn.version hj)]
    exact h.versions.detached o j hj
  · by_cases hjk : j = k
    · subst hjk
      rw [hself]
      refine ⟨hn.self.1, Or.inr ⟨(hn.logged hw hj).symm, fun hc => ?_, fun hc => ?_⟩⟩
      · cases hc
      · cases hc
    · rw [hcopies hjk]
      exact hn.other hw hj hjk

/-- The write clock of the version in `p_copy`. -/
def State.clkNext (s : State α β) (o : ℕ) : ℕ :=
  match s.pCopy o with
  | none => minVersion
  | some j => (s.copies j).wrtClk

theorem State.clkNext_of_none {o : ℕ} (h : s.pCopy o = none) : s.clkNext o = minVersion := by
  rw [clkNext, h]

theorem State.clkNext_of_some {o j : ℕ} (h : s.pCopy o = some j) :
    s.clkNext o = (s.copies j).wrtClk := by
  rw [clkNext, h]

theorem core_commitNew {ks : List ℕ} (h : Core B s t W (k :: ks)) (hn : Next B s t W k ks)
    (hkind : (s.copies k).kind = .copy)
    (hW : s.localClk t < W) (hlast : W ≤ s.lastClk) :
    Core B (s.commitNew W k) t W ks := by
  obtain ⟨hlt, -, hst, -, hpl⟩ := hn.self
  generalize ho : (s.copies k).obj = o at *
  have hmax := h.clocks.max
  -- `p_copy` is the newest version, unless that one is detached
  have hp : ∀ j, s.pCopy o = some j → ∃ rest, s.hist o = j :: rest ∧ s.status j ≠ .detached ∧
      s.wrtClkPrev j = maxVersion := by
    intro j hj
    cases hh : s.hist o with
    | nil =>
      rw [h.chains.nil o hh] at hj
      cases hj
    | cons i rest =>
      obtain ⟨h1, h2⟩ := h.chains.top o i (by rw [hh]; rfl)
      rcases h2 with ⟨h2, h3⟩ | ⟨h2, -⟩
      · rw [hj, Option.some_inj] at h2
        subst h2
        exact ⟨rest, rfl, h3, h1⟩
      · rw [hj] at h2
        cases h2
  have hpmem : ∀ {j}, s.pCopy o = some j → j ∈ s.hist o := by
    intro j hj
    obtain ⟨rest, hr, -⟩ := hp j hj
    rw [hr]
    exact List.mem_cons_self
  have hcopies : ∀ {j}, j ≠ k → (s.commitNew W k).copies j = s.copies j :=
    fun hj => Function.update_of_ne hj _ _
  have hself : (s.commitNew W k).copies k = { s.copies k with
      wrtClk := W
      pCopy := s.pCopy o
      wrtClkNext := s.clkNext o } := by
    rw [← ho]
    exact Function.update_self _ _ _
  have hprev : ∀ j, s.pCopy o ≠ some j → j ≠ k →
      (s.commitNew W k).wrtClkPrev j = s.wrtClkPrev j := by
    intro j hj hne
    simp only [State.commitNew, ho]
    cases hi : s.pCopy o with
    | none => exact Function.update_of_ne hne _ _
    | some i =>
      have hji : j ≠ i := by
        rintro rfl
        exact hj hi
      dsimp only
      rw [Function.update_of_ne hji, Function.update_of_ne hne]
  have hprevk : (s.commitNew W k).wrtClkPrev k = maxVersion := by
    simp only [State.commitNew, ho]
    cases hi : s.pCopy o with
    | none => exact Function.update_self _ _ _
    | some i =>
      dsimp only
      rw [Function.update_of_ne (hn.version (hpmem hi)).symm, Function.update_self]
  have hprevj : ∀ j, s.pCopy o = some j → (s.commitNew W k).wrtClkPrev j = W := by
    intro j hj
    simp only [State.commitNew, ho, hj]
    exact Function.update_self _ _ _
  have hhist : ∀ o', (s.commitNew W k).hist o' = if o' = o then k :: s.hist o else s.hist o' := by
    intro o'
    simp only [State.commitNew, ho]
    exact Function.update_apply _ _ _ _
  have hpCopy : ∀ o', (s.commitNew W k).pCopy o' = if o' = o then some k else s.pCopy o' := by
    intro o'
    simp only [State.commitNew, ho]
    exact Function.update_apply _ _ _ _
  have hlock : ∀ {o'}, o' ≠ o → (s.commitNew W k).pLock o' = s.pLock o' := by
    intro o' hne
    simp only [State.commitNew, ho]
    exact Function.update_of_ne hne _ _
  -- a version of another object is not `p_copy` of this one
  have hother : ∀ {o' j}, o' ≠ o → j ∈ s.hist o' → s.pCopy o ≠ some j :=
    fun hne hj hj' => hne (h.chains.obj_inj hj (hpmem hj'))
  have hheld : ∀ {t₁ j}, s.Held t ks t₁ j → s.pCopy o ≠ some j := by
    intro t₁ j hj hj'
    have h1 := (h.locks.opn t₁ j (hn.held hj).1).1
    have h2 := (h.chains.mem o j (hpmem hj')).2.2.2
    omega
  refine {
    clocks := { h.clocks with }
    locks := {
      lt := fun t₁ j hj => h.locks.lt t₁ j (hn.held hj).1
      tx := fun t₁ j hj => h.locks.tx t₁ j (hn.held hj).1
      opn := fun t₁ j hj => ?_
      lock := fun t₁ j hj => ?_
      owner := fun t₁ t₂ j h₁ h₂ => h.locks.owner t₁ t₂ j (hn.held h₁).1 (hn.held h₂).1
      nodup := h.locks.nodup
      newest := fun t₁ j hj i hi => ?_
      freed := fun j hj hf => ?_ }
    chains := {
      mem := fun o' j hj => ?_
      sorted := fun o' => ?_
      links := fun o' => ?_
      top := fun o' j hj => ?_
      nil := fun o' ho' => ?_ }
    versions := {
      detached := fun o' j hj => ?_
      entry := h.versions.entry }
    members := { old := h.members.old, copy := fun t₁ w hw j hj => ?_ } }
  · rw [hcopies (hn.held hj).2, hprev j (hheld hj) (hn.held hj).2]
    exact h.locks.opn t₁ j (hn.held hj).1
  · rw [hcopies (hn.held hj).2, hlock (ho ▸ hn.obj hj)]
    exact h.locks.lock t₁ j (hn.held hj).1
  · rw [hcopies (hn.held hj).2, hhist, if_neg (ho ▸ hn.obj hj)] at hi
    rw [hcopies (hn.version (List.mem_of_mem_head? hi))]
    exact h.locks.newest t₁ j (hn.held hj).1 i hi
  · have hne : j ≠ k := by
      rintro rfl
      rw [hself] at hf
      change (s.copies j).kind = .free at hf
      rw [hkind] at hf
      cases hf
    rw [hcopies hne] at hf ⊢
    obtain ⟨h1, h2, h3⟩ := h.locks.freed j hj hf
    have hobj : (s.copies j).obj ≠ o := ho ▸ (hn.freed hj hf).2
    rw [hlock hobj, hhist, if_neg hobj]
    refine ⟨h1, h2, fun i hi => ?_⟩
    rw [hcopies (hn.version hi)]
    exact h3 i hi
  · rw [hhist] at hj
    split at hj
    · rename_i he
      subst he
      rcases List.mem_cons.mp hj with rfl | hj
      · rw [hself]
        exact ⟨hlt, ho, hkind, hlast⟩
      · rw [hcopies (hn.version hj)]
        exact h.chains.mem o' j hj
    · rw [hcopies (hn.version hj)]
      exact h.chains.mem o' j hj
  · rw [hhist]
    have hold : (s.hist o').Pairwise fun i j =>
        ltClock B ((s.commitNew W k).copies j).wrtClk ((s.commitNew W k).copies i).wrtClk := by
      refine (h.chains.sorted o').imp_of_mem fun {i j} hi hj hlt => ?_
      rw [hcopies (hn.version hi), hcopies (hn.version hj)]
      exact hlt
    split
    · rename_i he
      subst he
      refine List.pairwise_cons.mpr ⟨fun j hj => ?_, hold⟩
      rw [hself, hcopies (hn.version hj)]
      have := hn.below (ho ▸ hj)
      show ltClock B (s.copies j).wrtClk W
      rw [ltClock_iff] at *
      omega
    · exact hold
  · rw [hhist]
    split
    · rename_i he
      subst he
      refine ⟨?_, (h.chains.links o').mono_tail (fun j hj => ?_) fun j hj => ?_⟩
      · -- the new version is linked to `p_copy`, or the chain starts with it
        cases hj : s.pCopy o' with
        | some j =>
          obtain ⟨rest, hr, -⟩ := hp j hj
          rw [hr]
          left
          rw [hself, hcopies (hn.version (hpmem hj)), hprevj j hj, hj]
          exact ⟨rfl, State.clkNext_of_some hj, rfl⟩
        | none =>
          cases hh : s.hist o' with
          | nil =>
            show _ ∧ _
            rw [hself, hj]
            exact ⟨rfl, State.clkNext_of_none hj⟩
          | cons i rest =>
            obtain ⟨h1, h2⟩ := h.chains.top o' i (by rw [hh]; rfl)
            right
            have hik : i ≠ k := hn.version (o := o') (by rw [hh]; simp)
            rw [hself, hprev i (by rw [hj]; simp) hik, hj]
            refine ⟨rfl, State.clkNext_of_none hj, ?_, h1⟩
            rcases h2 with h2 | h2
            · rw [hj] at h2
              cases h2.1
            · exact h2.2
      · rw [hcopies (hn.version hj)]
        exact ⟨rfl, rfl, rfl⟩
      · have hne : s.pCopy o' ≠ some j := by
          -- only the newest version is `p_copy`, and the clocks differ
          intro hj'
          obtain ⟨rest, hr, -⟩ := hp j hj'
          have hs := h.chains.sorted o'
          rw [hr] at hj hs
          have := (List.pairwise_cons.mp hs).1 j hj
          rw [ltClock_iff] at this
          omega
        exact ⟨hprev j hne (hn.version (List.mem_of_mem_tail hj)), id⟩
    · rename_i he
      refine (h.chains.links o').mono fun j hj => ?_
      rw [hcopies (hn.version hj), hprev j (hother he hj) (hn.version hj)]
      exact ⟨rfl, rfl, rfl, rfl, id⟩
  · rw [hhist] at hj
    rw [hpCopy]
    split at hj
    · rename_i he
      cases hj
      rw [if_pos he]
      refine ⟨hprevk, Or.inl ⟨rfl, ?_⟩⟩
      show s.status k ≠ _
      rw [hst]
      simp
    · rename_i he
      have hj' := List.mem_of_mem_head? hj
      rw [if_neg he, hprev j (hother he hj') (hn.version hj')]
      exact h.chains.top o' j hj
  · rw [hhist] at ho'
    rw [hpCopy]
    split at ho'
    · cases ho'
    · rename_i he
      rw [if_neg he]
      exact h.chains.nil o' ho'
  · rw [hhist] at hj
    intro hd
    split at hj
    · rename_i he
      subst he
      rcases List.mem_cons.mp hj with rfl | hj
      · change s.status j = _ at hd
        rw [hst] at hd
        cases hd
      · rw [hcopies (hn.version hj)]
        exact h.versions.detached o' j hj hd
    · rw [hcopies (hn.version hj)]
      exact h.versions.detached o' j hj hd
  · by_cases hjk : j = k
    · subst hjk
      rw [hself]
      refine ⟨hlt, Or.inr ⟨(hn.logged hw hj).symm, fun _ => ?_, fun hc => ?_⟩⟩
      · show j ∈ (s.commitNew W j).hist (s.copies j).obj
        rw [hhist, if_pos ho]
        exact List.mem_cons_self
      · change (s.copies j).kind = _ at hc
        rw [hkind] at hc
        cases hc
    · rw [hcopies hjk]
      obtain ⟨h1, h2⟩ := hn.other hw hj hjk
      refine ⟨h1, h2.imp_right ?_⟩
      rintro ⟨h3, h4, h5⟩
      refine ⟨h3, fun hc => ?_, fun hc => ?_⟩
      · rw [hhist]
        split
        · rename_i he
          rw [← he]
          exact List.mem_cons_of_mem _ (h4 hc)
        · exact h4 hc
      · have hne : s.pCopy o ≠ some j := by
          intro hj'
          have := (h.chains.mem o j (hpmem hj')).2.2.1
          rw [hc] at this
          cases this
        rw [hprev j hne hjk]
        exact h5 hc

theorem core_commitCopy {ks : List ℕ} (h : Core B s t W (k :: ks)) (hws : s.ws t = [])
    (hnd : (k :: ks).Nodup) (hW : s.localClk t < W) (hlast : W ≤ s.lastClk) :
    Core B (s.commitCopy t W k) t W ks := by
  have hn := h.next hws hnd
  unfold State.commitCopy
  split
  · exact core_commitFree h hn hW
  · split
    · rename_i hkind
      exact core_commitNew h hn hkind hW hlast
    · rename_i hkind
      exact core_commitConst h hn (by rw [hkind]; simp)
    · rename_i hkind
      exact absurd hkind hn.self.2.1

/-- What the commit of a copy leaves alone. -/
theorem commitCopy_frame (s : State α β) (t W k : ℕ) :
    (s.commitCopy t W k).ws = s.ws ∧ (s.commitCopy t W k).localClk = s.localClk ∧
      (s.commitCopy t W k).lastClk = s.lastClk ∧ (s.commitCopy t W k).tvNew = s.tvNew ∧
      (s.commitCopy t W k).qpClks = s.qpClks := by
  unfold State.commitCopy
  split
  · exact ⟨rfl, rfl, rfl, rfl, rfl⟩
  · split <;> exact ⟨rfl, rfl, rfl, rfl, rfl⟩

/-- Induction over the copies of a write set that commits. -/
theorem commit_induction {P : State α β → List ℕ → Prop}
    (hstep : ∀ s k ks, Core B s t W (k :: ks) → s.ws t = [] → (k :: ks).Nodup → s.localClk t < W →
      W ≤ s.lastClk → P s (k :: ks) → P (s.commitCopy t W k) ks) (ks : List ℕ) :
    ∀ s, Core B s t W ks → s.ws t = [] → ks.Nodup → s.localClk t < W → W ≤ s.lastClk → P s ks →
      Core B (ks.foldl (fun s k => s.commitCopy t W k) s) t W [] ∧
        (ks.foldl (fun s k => s.commitCopy t W k) s).ws t = [] ∧
        P (ks.foldl (fun s k => s.commitCopy t W k) s) [] := by
  induction ks with
  | nil =>
    intro s h hws _ _ _ hp
    exact ⟨h, hws, hp⟩
  | cons k ks ih =>
    intro s h hws hnd hW hlast hp
    obtain ⟨h1, h2, h3, -⟩ := commitCopy_frame s t W k
    rw [List.foldl_cons]
    refine ih _ (core_commitCopy h hws hnd hW hlast) ?_ (List.nodup_cons.mp hnd).2 ?_ ?_
      (hstep s k ks h hws hnd hW hlast hp)
    · rw [h1]
      exact hws
    · rw [h2]
      exact hW
    · rw [h3]
      exact hlast

/-- A transaction commits at a clock that is later than its own. -/
theorem core_tvlogCommit (info : β) (h : Core B s t W []) (hv : s.Reading B W)
    (hW : s.localClk t < W) :
    Core B (s.tvlogCommit t W info) t W [] ∧ (s.tvlogCommit t W info).ws t = [] := by
  obtain ⟨h1, h2, -⟩ := commit_induction (P := fun _ _ => True) (fun _ _ _ _ _ _ _ _ _ => trivial)
    (s.ws t) (s.commitSet t W info) (core_commitSet h hv) (Function.update_self _ _ _)
    (h.locks.nodup t) hW (le_max_right _ _) trivial
  exact ⟨h1, h2⟩

end TimeStone.System
