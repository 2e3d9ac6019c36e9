/-
A commit becomes visible atomically.

A reader that follows the version chains returns the newest version it has to see,
so a transaction sees all of a write set or none of it
(`commit_visible_atomically`).  The argument breaks in one place: a reader that has
to see a write set and loads its `pending_wrt_clk` after the clock is read and before
it is stored takes the set for one without a clock (`commit_seen_in_half`).

* `NoReadInWindow` — the condition on the loads of `pending_wrt_clk`;
* `inv_derefStep`, `inv_step` — the invariant along a run;
* `Linked.not_vis` — a reader that must not see a copy must not see a newer one.
-/
import TimeStone.CommitInv

namespace TimeStone.Commit

variable {B : ℕ} {s s' : State}

/-! ### Readers -/

/-- The program counters of a transaction that is not in its commit. -/
def Pc.Running : Pc → Prop
  | .inTx | .loadWrtClk _ _ | .loadPending _ _ | .wait _ _ => True
  | _ => False

theorem inv_running {t : ℕ} {pc : Pc} {reads : List (ℕ × Option ℕ)} (h : Inv B s)
    (hpc : (s.threads t).pc.Running) (hpc' : pc.Running)
    (hr : ReadInv B s { s.threads t with pc := pc, reads := reads }) :
    Inv B (s.setThread t { s.threads t with pc := pc, reads := reads }) := by
  refine inv_local h ?_ (fun w hw => hw) hr
  have hT := h.threads.each t
  have hsame : ∀ T : Thread, T.pc.Running →
      T.held = T.copies ∧ T.waiting = T.copies ∧ T.clk = none := by
    intro T hT
    unfold Thread.held Thread.waiting Thread.clk
    cases hp : T.pc <;> simp_all [Pc.Running]
  obtain ⟨e1, e2, e3⟩ := hsame _ hpc
  obtain ⟨f1, f2, f3⟩ := hsame { s.threads t with pc := pc, reads := reads } hpc'
  refine hT.congr ?_ rfl rfl rfl (by rw [e1, f1]) (by rw [e2, f2]) (by rw [e3, f3])
  intro hout
  rw [show pc = .outside from hout] at hpc'
  exact hpc'.elim

/-- A `ts_deref` returns the version `r`. -/
theorem inv_record {t o : ℕ} {r : Option ℕ} (h : Inv B s) (hpc : (s.threads t).pc.Running)
    (hr : Newest B s (s.threads t).localClk o r) : Inv B (s.record t o r) := by
  refine inv_running h hpc trivial ⟨fun p hp => ?_, ?_⟩
  · rcases List.mem_cons.mp hp with rfl | hp
    · exact hr
    · exact (h.read t).reads p hp
  · rintro o k (hpc | hpc | hpc) <;> cases hpc

/-- The reader has nothing to see before `r`. -/
def Upto (B : ℕ) (s : State) (c o : ℕ) : Option ℕ → Prop
  | none => ∀ k ∈ s.hist o, ¬ Vis B s c k
  | some k => Due B s c o k

theorem inv_visit {t o : ℕ} {r : Option ℕ} (h : Inv B s) (hpc : (s.threads t).pc.Running)
    (hr : Upto B s (s.threads t).localClk o r) : Inv B (s.visit t o r) := by
  cases r with
  | none => exact inv_record h hpc hr
  | some k =>
    refine inv_running h hpc trivial ⟨(h.read t).reads, ?_⟩
    rintro o' k' (hpc | hpc | hpc) <;> cases hpc
    exact hr

/-- The reader starts with the newest copy. -/
theorem MemInv.upto_head (h : MemInv B s) (c o : ℕ) : Upto B s c o (s.pCopy o) := by
  rw [h.head o]
  cases hh : s.hist o with
  | nil =>
    intro k hk
    rw [hh] at hk
    cases hk
  | cons k ks => exact ⟨[], ks, hh, by simp⟩

theorem Linked.suffix {ks newer : List ℕ} (h : Linked B s (newer ++ ks)) : Linked B s ks := by
  induction newer with
  | nil => exact h
  | cons k newer ih => exact ih h.2.2

/-- The reader goes on from a copy it must not see. -/
theorem MemInv.upto_next (h : MemInv B s) {c o k : ℕ} (hd : Due B s c o k)
    (hv : ¬ Vis B s c k) : Upto B s c o (s.copies k).pCopy := by
  obtain ⟨newer, older, h1, h2⟩ := hd
  have hl := h.linked o
  rw [h1] at hl
  rw [hl.suffix.1]
  have hnot : ∀ k' ∈ newer ++ [k], ¬ Vis B s c k' := by
    intro k' hk'
    rcases List.mem_append.mp hk' with hk' | hk'
    · exact h2 k' hk'
    · rw [List.mem_singleton.mp hk']
      exact hv
  cases older with
  | nil =>
    intro k' hk'
    rw [h1] at hk'
    exact hnot k' hk'
  | cons k₁ older => exact ⟨newer ++ [k], older, by rw [h1]; simp, hnot⟩

/-- `ts_deref` judges the copy `k` by its clock, or by `MAX_VERSION` when it must not
see it. -/
theorem inv_judge {t o k w : ℕ} (h : Inv B s) (hpc : (s.threads t).pc.Running)
    (hd : Due B s (s.threads t).localClk o k)
    (hw : s.clkOf k = some w ∨ w = maxVersion ∧ ¬ Vis B s (s.threads t).localClk k) :
    Inv B (s.judge B t o k w) := by
  unfold State.judge
  split
  · rename_i hlt
    rcases hw with hw | ⟨rfl, -⟩
    · obtain ⟨newer, older, h1, h2⟩ := hd
      exact inv_record h hpc ⟨newer, older, h1, h2, w, hw, hlt⟩
    · -- no local clock is behind `MAX_VERSION`
      have h1 := (h.threads.each t).localClk
      have h2 := h.mem.lastClk
      rw [ltClock_iff] at hlt
      omega
  · rename_i hlt
    refine inv_visit h hpc (h.mem.upto_next hd ?_)
    rcases hw with hw | ⟨-, hv⟩
    · rintro ⟨W, hW, hlt'⟩
      rw [hw, Option.some_inj] at hW
      subst hW
      exact hlt hlt'
    · exact hv

/-- A load of `pending_wrt_clk` in the window in which the write set has read its clock
but not stored it comes from a reader that must not see the write set. -/
def NoReadInWindow (B : ℕ) (s : State) : Op → Prop
  | .derefStep t =>
    match (s.threads t).pc with
    | .loadPending _ k => (s.wss (s.copies k).ws).pendingWrtClk = maxVersion →
        ∀ W ∈ (s.wss (s.copies k).ws).clk, ¬ ltClock B W (s.threads t).localClk
    | _ => True
  | _ => True

instance (B : ℕ) (s : State) (op : Op) : Decidable (NoReadInWindow B s op) := by
  unfold NoReadInWindow
  split
  · split <;> infer_instance
  · infer_instance

theorem inv_derefStep {t : ℕ} (h : Inv B s) (hok : NoReadInWindow B s (.derefStep t))
    (hs : derefStep B s t = some s') : Inv B s' := by
  have hdue := (h.read t).due
  unfold derefStep at hs
  split at hs
  · rename_i o k hpc
    have hd := hdue o k (Or.inl hpc)
    have hrun : (s.threads t).pc.Running := by rw [hpc]; trivial
    split at hs <;> cases hs
    · rename_i hw
      obtain ⟨newer, older, h1, h2⟩ := hd
      have hk := (h.mem.alloc o k (by rw [h1]; simp)).1
      exact inv_judge h hrun ⟨newer, older, h1, h2⟩ (Or.inl (h.mem.stamp k hk hw))
    · refine inv_running h hrun trivial ⟨(h.read t).reads, ?_⟩
      rintro o' k' (hpc' | hpc' | hpc') <;> cases hpc'
      exact hd
  · rename_i o k hpc
    have hd := hdue o k (Or.inr (Or.inl hpc))
    have hrun : (s.threads t).pc.Running := by rw [hpc]; trivial
    simp only [NoReadInWindow, hpc] at hok
    dsimp only at hs
    split at hs <;> cases hs
    · rename_i hp
      refine inv_judge h hrun hd (Or.inr ⟨rfl, ?_⟩)
      rintro ⟨W, hW, hlt⟩
      by_cases hmax : (s.wss (s.copies k).ws).pendingWrtClk = maxVersion
      · exact hok hmax W hW hlt
      · -- the clock is stored, and the reader started before it
        have hlt' := hp.resolve_left hmax
        have hW' := (h.mem.each _).pending hmax
        rw [State.clkOf, hW', Option.some_inj] at hW
        rw [ltClock_iff] at hlt
        omega
    · refine inv_running h hrun trivial ⟨(h.read t).reads, ?_⟩
      rintro o' k' (hpc' | hpc' | hpc') <;> cases hpc'
      exact hd
  · rename_i o k hpc
    have hrun : (s.threads t).pc.Running := by rw [hpc]; trivial
    dsimp only at hs
    split at hs <;> cases hs
    rename_i hw
    exact inv_judge h hrun (hdue o k (Or.inr (Or.inr hpc))) (Or.inl ((h.mem.each _).wrtClk hw))
  · cases hs

theorem inv_step {op : Op} (h : Inv B s) (hok : NoReadInWindow B s op)
    (hs : step B s op = some s') : Inv B s' := by
  cases op with
  | begin t v =>
    simp only [step] at hs
    split at hs <;> cases hs
    rename_i hc
    exact inv_begin h hc.1 hc.2
  | deref t o =>
    simp only [step] at hs
    split at hs <;> cases hs
    rename_i hpc
    exact inv_visit h (by rw [hpc]; trivial) (h.mem.upto_head _ o)
  | derefStep t => exact inv_derefStep h hok hs
  | lock t o kind => exact inv_lock h hs
  | free t k => exact inv_free h hs
  | endTx t =>
    simp only [step] at hs
    split at hs <;> cases hs
    rename_i hpc
    exact inv_endTx h hpc
  | commitStep t v => exact inv_commitStep h hs
  | abort t =>
    simp only [step] at hs
    split at hs <;> cases hs
    exact inv_abort h

theorem inv_initial : Inv B initial := by
  refine ⟨⟨?_, ?_, ?_, ?_, ?_, ?_, ?_, ?_, ?_⟩, ⟨fun t => ?_, ?_⟩, fun t => ⟨?_, ?_⟩⟩
  · intro o k hk
    cases hk
  · intro o
    exact List.nodup_nil
  · intro o
    rfl
  · intro o
    trivial
  · show 0 < maxVersion
    decide
  · intro k hk
    cases hk
  · intro w _
    rfl
  · intro w
    exact ⟨fun W hW => (by cases hW), fun hne => absurd rfl hne, fun hne => absurd rfl hne⟩
  · intro k hk
    cases hk
  · refine ⟨fun _ => ⟨rfl, rfl⟩, le_refl _, fun w hw => (by cases hw), fun k hk => (by cases hk),
      List.nodup_nil, ⟨List.nil_sublist _, fun k hk => (by cases hk)⟩, List.nil_sublist _,
      fun k hk => (by cases hk)⟩
  · intro t t' w hw
    cases hw
  · intro p hp
    cases hp
  · rintro o k (hpc | hpc | hpc) <;> cases hpc

/-- The states of runs that keep to the condition `ok`. -/
abbrev Reachable (B : ℕ) (ok : State → Op → Prop) : State → Prop :=
  Run.Reach (· = initial) (step B) ok

theorem Reachable.inv (h : Reachable B (NoReadInWindow B) s) : Inv B s :=
  Run.Reach.invariant (fun _ h0 => h0 ▸ inv_initial) (fun _ _ _ hi hok hs => inv_step hi hok hs) h

/-! ### All or nothing -/

/-- A reader that must not see a copy must not see a newer one either: the newer copy
was locked by a transaction that could see the older one, and has a later clock. -/
theorem Linked.not_vis (hws : ∀ w, WsInv B (s.wss w)) {c k : ℕ} :
    ∀ {newer older : List ℕ}, Linked B s (newer ++ k :: older) → ¬ Vis B s c k →
      ∀ k' ∈ newer, ¬ Vis B s c k' := by
  intro newer
  induction newer with
  | nil =>
    intro older _ _ k' hk'
    cases hk'
  | cons k₁ newer ih =>
    intro older hl hv k' hk'
    obtain ⟨-, hnext, htail⟩ := hl
    rcases List.mem_cons.mp hk' with rfl | hk'
    · -- the copy right below `k'`
      obtain ⟨k₂, hk₂, hv₂⟩ : ∃ k₂, (newer ++ k :: older).head? = some k₂ ∧ ¬ Vis B s c k₂ := by
        cases newer with
        | nil => exact ⟨k, rfl, hv⟩
        | cons k₂ newer => exact ⟨k₂, rfl, ih htail hv k₂ List.mem_cons_self⟩
      obtain ⟨W, hW, hlt⟩ := hnext k₂ hk₂
      rintro ⟨W', hW', hlt'⟩
      have h1 := (hws _).clk W' hW'
      refine hv₂ ⟨W, hW, ?_⟩
      rw [ltClock_iff] at *
      omega
    · exact ih htail hv k' hk'

/-- Where `k` stands before `k'` in a chain, it is among the copies newer than `k'`. -/
theorem mem_newer {newer older newer' older' : List ℕ} {k k' : ℕ}
    (hn : (newer ++ k :: older).Nodup) (h : newer ++ k :: older = newer' ++ k' :: older')
    (hk' : k' ∈ older) : k ∈ newer' := by
  have hne : k ≠ k' := by
    rintro rfl
    exact (List.nodup_cons.mp (List.nodup_append.mp hn).2.1).1 hk'
  have hdisj : ∀ x ∈ newer, x ≠ k' := by
    intro x hx
    exact (List.nodup_append.mp hn).2.2 x hx k' (List.mem_cons_of_mem _ hk')
  rcases List.append_eq_append_iff.mp h with ⟨l, e1, e2⟩ | ⟨l, e1, e2⟩
  · cases l with
    | nil =>
      rw [List.nil_append, List.cons.injEq] at e2
      exact absurd e2.1 hne
    | cons x l =>
      rw [List.cons_append, List.cons.injEq] at e2
      rw [e1, ← e2.1]
      simp
  · cases l with
    | nil =>
      rw [List.nil_append, List.cons.injEq] at e2
      exact absurd e2.1.symm hne
    | cons x l =>
      rw [List.cons_append, List.cons.injEq] at e2
      refine absurd e2.1.symm (hdisj x ?_)
      rw [e1]
      simp

/-- What was read is the newest version to be seen, so a reader that has to see `k` has
not read an older one. -/
theorem Newest.not_older (hn : ∀ o, (s.hist o).Nodup) {c o k : ℕ} {r : Option ℕ}
    (h : Newest B s c o r) (hv : Vis B s c k) : ¬ Older s o r k := by
  rintro ⟨newer, older, h1, h2⟩
  cases r with
  | none => exact h k (by rw [h1]; simp) hv
  | some k' =>
    obtain ⟨newer', older', h1', hnot, -⟩ := h
    have hnd := hn o
    rw [h1] at h1' hnd
    exact hnot k (mem_newer hnd h1' (h2 k' rfl)) hv

/-- A reader that must not see `k` has read an older version. -/
theorem Newest.not_atLeast (hm : MemInv B s) {c o k : ℕ} {r : Option ℕ}
    (h : Newest B s c o r) (hv : ¬ Vis B s c k) : ¬ AtLeast s o r k := by
  rintro ⟨newer, older, h1, k', rfl, hk'⟩
  obtain ⟨-, -, -, -, hv'⟩ := h
  rcases hk' with rfl | hk'
  · exact hv hv'
  · have hl := hm.linked o
    rw [h1] at hl
    exact hl.not_vis hm.each hv k' hk' hv'

/-- In a run in which no reader that has to see a write set looks for its clock in the
window before the clock is stored, a transaction sees all of a write set or none of it. -/
theorem commit_visible_atomically (h : Reachable B (NoReadInWindow B) s) {a b ka kb : ℕ}
    (hset : (s.copies ka).ws = (s.copies kb).ws) {t : ℕ} {ra rb : Option ℕ} (hra : (a, ra) ∈ (s.threads t).reads)
    (hrb : (b, rb) ∈ (s.threads t).reads) (hold : Older s a ra ka) : ¬ AtLeast s b rb kb := by
  have hi := h.inv
  have hvis : Vis B s (s.threads t).localClk ka ↔ Vis B s (s.threads t).localClk kb := by
    rw [Vis, Vis, State.clkOf, State.clkOf, hset]
  have hna := (hi.read t).reads _ hra
  have hnb := (hi.read t).reads _ hrb
  by_cases hv : Vis B s (s.threads t).localClk ka
  · exact absurd hold (hna.not_older hi.mem.nodup hv)
  · exact hnb.not_atLeast hi.mem fun hv' => hv (hvis.mpr hv')

/-- What the runs below show: the two chains, the write sets of their copies, where the
first thread is, and the reads of the second one. -/
structure View where
  hist : List ℕ × List ℕ
  ws : ℕ × ℕ
  pc : Pc
  reads : List (ℕ × Option ℕ)
  deriving DecidableEq

/-- The view of a state. -/
def State.view (s : State) : View :=
  ⟨(s.hist 0, s.hist 1), ((s.copies 0).ws, (s.copies 1).ws), (s.threads 0).pc,
    (s.threads 1).reads⟩

/-- The second thread starts before the first one writes both objects, and reads the
masters of both after the commit. -/
theorem commit_visible_atomically_none :
    ∃ s : State, Reachable 0 (NoReadInWindow 0) s ∧ s.hist 0 = [0] ∧ s.hist 1 = [1] ∧
      (s.threads 1).reads = [(1, none), (0, none)] ∧ Older s 0 none 0 ∧ ¬ AtLeast s 1 none 1 := by
  have hd : ((Run.exec (step 0) (NoReadInWindow 0) initial
      [.begin 1 5, .begin 0 10, .lock 0 0 .copy, .lock 0 1 .copy, .endTx 0, .commitStep 0 0,
        .commitStep 0 0, .commitStep 0 20, .commitStep 0 0, .commitStep 0 0, .commitStep 0 0,
        .commitStep 0 0, .commitStep 0 0, .commitStep 0 0, .deref 1 0, .derefStep 1, .deref 1 1,
        .derefStep 1]).map State.view) =
      some ⟨([0], [1]), (0, 0), .outside, [(1, none), (0, none)]⟩ := by
    decide +kernel
  rw [Option.map_eq_some_iff] at hd
  obtain ⟨s, hs, heq⟩ := hd
  obtain ⟨h0, h1, hw0, hw1, -, hr⟩ : s.hist 0 = [0] ∧ s.hist 1 = [1] ∧ (s.copies 0).ws = 0 ∧
      (s.copies 1).ws = 0 ∧ (s.threads 0).pc = .outside ∧
      (s.threads 1).reads = [(1, none), (0, none)] := by
    simpa [State.view, and_assoc] using heq
  have hreach : Reachable 0 (NoReadInWindow 0) s := .of_exec (.init rfl) hs
  have hold : Older s 0 none 0 := ⟨[], [], h0, by simp⟩
  have hr0 : (0, none) ∈ (s.threads 1).reads := by rw [hr]; simp
  have hr1 : (1, none) ∈ (s.threads 1).reads := by rw [hr]; simp
  exact ⟨s, hreach, h0, h1, hr, hold,
    commit_visible_atomically hreach (hw0.trans hw1.symm) hr0 hr1 hold⟩

/-- The first thread reads the clock 20 for its write set and stops.  The second one
starts at 30 and finds no clock for the copy of the object 0; after the commit it
reads the copy of the object 1. -/
theorem commit_seen_in_half :
    ∃ s : State, Reachable 0 Run.any s ∧ (s.copies 0).ws = (s.copies 1).ws ∧
      (s.threads 0).pc = .outside ∧ (0, none) ∈ (s.threads 1).reads ∧
      (1, some 1) ∈ (s.threads 1).reads ∧ Older s 0 none 0 ∧ AtLeast s 1 (some 1) 1 := by
  have hd : ((Run.exec (step 0) Run.any initial
      [.begin 0 10, .lock 0 0 .copy, .lock 0 1 .copy, .endTx 0, .commitStep 0 0,
        .commitStep 0 0, .commitStep 0 20, .begin 1 30, .deref 1 0, .derefStep 1, .derefStep 1,
        .commitStep 0 0, .commitStep 0 0, .commitStep 0 0, .commitStep 0 0, .commitStep 0 0,
        .commitStep 0 0, .deref 1 1, .derefStep 1]).map State.view) =
      some ⟨([0], [1]), (0, 0), .outside, [(1, some 1), (0, none)]⟩ := by
    decide +kernel
  rw [Option.map_eq_some_iff] at hd
  obtain ⟨s, hs, heq⟩ := hd
  obtain ⟨h0, h1, hw0, hw1, hpc, hr⟩ : s.hist 0 = [0] ∧ s.hist 1 = [1] ∧
      (s.copies 0).ws = 0 ∧ (s.copies 1).ws = 0 ∧ (s.threads 0).pc = .outside ∧
      (s.threads 1).reads = [(1, some 1), (0, none)] := by
    simpa [State.view, and_assoc] using heq
  exact ⟨s, .of_exec (.init rfl) hs, hw0.trans hw1.symm, hpc, by rw [hr]; simp,
    by rw [hr]; simp, ⟨[], [], h0, by simp⟩, [], [], h1, 1, rfl, Or.inl rfl⟩

end TimeStone.Commit
