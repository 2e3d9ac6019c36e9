/-
Snapshot reads, with reclamation running.

* `snapshot_read` — in orderly runs, what a running transaction has read is the newest version
  in its snapshot, and is still in the memory where it was found, unless the object was freed in
  that snapshot;
* `snapshot_read_fails` — with a `__last_ckpt` that is too old, a `ts_deref` returns a copy that
  is then given back;
* `snapshot_read_misses` — a `ts_deref` does not find a commit clock that was read before its
  transaction began, and is announced only after it;
* `deref_no_dangling` — in orderly runs, a `ts_deref` reads no copy that was given back;
* `duplicates_what_it_read` — what a transaction duplicates is what it reads.
-/
import TimeStone.SnapshotReadInv
import TimeStone.WriteRuleRun

namespace TimeStone.SnapshotRead

open WriteRule (Master Mode Safe TxStep)

variable {B : ℕ} {s s' : State} {r : WriteRule.State} {t u o k j n : ℕ} {x y : Read}

/-! ### The steps of the others -/

section

variable (h : Invariant B s)

include h

theorem Invariant.of_rule (hr : WriteRule.Invariant B r) (hc : Checkpoints B r)
    (hf : Frame B s.rule r) {q : ℕ → Bool} {l : List ℕ}
    (hcalls : ∀ t, s.deref t ≠ .idle → (r.chain.threads t).pc = .inTx ∧ r.aborting t = false)
    (hdone : r.phase = .reclaim .ckpt → ∀ k, (r.chain.copies k).inserted = true →
      (r.chain.copies k).wrtClk + B < r.qp0 → r.owner k ∉ l → q (r.owner k) = false →
        (r.slot k).passed ≠ none) :
    Invariant B ⟨r, s.deref, fun t => if r.Active t then s.reads t else [], s.lastCkpt, q, l⟩ where
  rule := hr
  ckpts := hc
  lastCkpt := fun t => Nat.le_trans (h.lastCkpt t) hf.lastCkpt
  done := hdone
  calls := hcalls
  ended := fun t ht => if_neg ht
  derefOk := by
    intro t
    by_cases ht : s.deref t = .idle
    · show DerefOk B r t (s.deref t)
      rw [ht]
      trivial
    · obtain ⟨h1, h2⟩ := hcalls t ht
      rcases hf.active t ⟨by simp [h1], h2⟩ with hu | hu
      · exact (h.derefOk t).frame hf hu h.ckpts h.rule
      · exact absurd (h.active ht) hu.inactive
  readOk := by
    intro t x hx hb
    dsimp only at hx
    split at hx
    · rename_i hact
      rcases hf.active t hact with hu | hu
      · exact (h.readOk t x hx fun ht => hb (hf.tombstoned _ ht)).frame hf hu h.ckpts h.rule hb
      · rw [h.ended t hu.inactive] at hx
        cases hx
    · cases hx

theorem Invariant.run_tx (ht : TxStep B s.rule r t)
    (hm : Moves B s.rule.lastClk s.rule.chain r.chain)
    (hcall : s.deref t ≠ .idle → (r.chain.threads t).pc = .inTx ∧ r.aborting t = false) :
    Invariant B ⟨r, s.deref, fun t => if r.Active t then s.reads t else [], s.lastCkpt,
      s.requested, s.untold⟩ := by
  refine h.of_rule (h.rule.txStep ht) (h.ckpts.txStep h.rule ht hm) (frame_txStep h.rule ht hm)
    (fun u hu => ?_) fun hph k hk hclk hun hreq => ?_
  · by_cases hut : u = t
    · rw [hut] at hu ⊢
      exact hcall hu
    · rw [ht.leaves.threads u hut, ht.aborting u hut]
      exact h.calls u hu
  · rw [ht.rest.phase] at hph
    rw [ht.rest.qp0] at hclk
    -- a new version is not below the clock
    rcases ht.evolves.new k hk with ⟨h1, h2⟩ | h1
    · rw [h2] at hclk
      rw [ht.owner k (h.rule.lt h1)] at hun hreq
      obtain ⟨p, hp⟩ := Option.ne_none_iff_exists'.mp (h.done hph k h1 hclk hun hreq)
      rw [ht.passed_of h.rule hp]
      simp
    · omega

theorem Invariant.run_stays (hr : WriteRule.Invariant B r) (hg : Stays B s.rule r) {q : ℕ → Bool}
    (hq : s.rule.phase = .reclaim .ckpt → ∀ k, (s.rule.chain.copies k).inserted = true →
      (s.rule.chain.copies k).wrtClk + B < s.rule.qp0 → q (s.rule.owner k) = false →
        s.requested (s.rule.owner k) = false ∨ (s.rule.slot k).passed ≠ none) :
    Invariant B ⟨r, s.deref, fun t => if r.Active t then s.reads t else [], s.lastCkpt, q,
      s.untold⟩ := by
  have hm := hg.same
  refine h.of_rule hr (h.ckpts.next h.rule hg.toGoes) hg.frame (fun u hu => ?_)
    fun hph k hk hclk hun hreq => ?_
  · rw [hm.threads, hm.aborting]
    exact h.calls u hu
  · obtain ⟨h1, h2⟩ := hg.round hph
    have howner : r.owner k = s.rule.owner k := by
      rw [WriteRule.State.owner, WriteRule.State.owner, hm.copies, hm.wss]
    rw [hm.copies] at hk hclk
    rw [h2] at hclk
    rw [howner] at hun hreq
    refine hg.kept k ?_
    rcases hq h1 k hk hclk hreq with h3 | h3
    · exact h.done h1 k hk hclk hun h3
    · exact h3

/-- The end of a `tvlog_reclaim_x`: a checkpoint has visited the log. -/
theorem Invariant.tvEnd (hvis : s.rule.tv t = .loop .ckpt → Visited B s.rule t)
    (hr : WriteRule.Invariant B r) (hs : WriteRule.tvEnd s.rule t = some r) :
    Invariant B ⟨r, s.deref, fun t => if r.Active t then s.reads t else [], s.lastCkpt,
      Function.update s.requested t false, s.untold⟩ := by
  refine h.run_stays hr (stays_tvEnd h.ckpts h.rule hs) fun hph k hk hclk hreq => ?_
  by_cases hkt : s.rule.owner k = t
  · right
    have hloop : s.rule.tv t = .loop .ckpt := by
      unfold WriteRule.tvEnd at hs
      split at hs
      · rename_i m hm
        have := h.ckpts.mode t m (by rw [hm]; rfl)
        rw [hph] at this
        cases this
        exact hm
      · cases hs
    cases hf : (s.rule.slot k).freed with
    | true =>
      obtain ⟨p, hp, -⟩ := h.rule.slots.freed k hf hk
      simp [hp]
    | false =>
      have hmax := h.rule.masters.le
      have hlt := h.rule.lt hk
      have hws := h.rule.chain.chains.stamp k hlt (by
        rw [VersionChain.Copy.Committed]
        omega)
      refine hvis hloop k hlt ⟨hlt, hkt, hf⟩ ?_ ?_
      · rw [hws]
        omega
      · rw [hws, ltClock_iff]
        exact hclk
  · rw [Function.update_of_ne hkt] at hreq
    exact Or.inl hreq

theorem Invariant.barrier (hen : s.untold = [] ∧ ∀ t ∈ s.rule.threads, s.requested t = false)
    (hr : WriteRule.Invariant B r) (hs : WriteRule.barrier s.rule = some r) :
    Invariant B ⟨r, s.deref, fun t => if r.Active t then s.reads t else [], s.lastCkpt,
      s.requested, s.untold⟩ := by
  obtain ⟨hf, hc⟩ := h.ckpts.barrier h.rule (fun hph k hk hclk => h.done hph k hk hclk
    (by simp [hen.1]) (hen.2 _ (h.ckpts.owner k hk))) hs
  unfold WriteRule.barrier at hs
  split at hs
  · obtain ⟨-, hs⟩ := Option.ite_none_right_eq_some.mp hs
    cases hs
    exact h.of_rule hr hc hf h.calls (by simp)
  · cases hs

theorem Invariant.trigger {m : Mode} (hr : WriteRule.Invariant B r)
    (hs : WriteRule.trigger s.rule m = some r) :
    Invariant B ⟨r, s.deref, fun t => if r.Active t then s.reads t else [], s.lastCkpt,
      s.requested, r.threads⟩ := by
  have hg := goes_trigger h.ckpts h.rule hs
  have hc := h.ckpts.next h.rule hg
  refine h.of_rule hr hc hg.frame (fun u hu => ?_) fun _ k hk _ hun => ?_
  · rw [hg.same.threads, hg.same.aborting]
    exact h.calls u hu
  · exact absurd (hc.owner k hk) hun

theorem Invariant.run {op : WriteRule.Op} (hok : WriteRule.Orderly s.rule op)
    (hap : Apart B s.rule op) (hrun : run B s op = some s') : Invariant B s' := by
  unfold SnapshotRead.run at hrun
  obtain ⟨hen, hmap⟩ := Option.ite_none_right_eq_some.mp hrun
  obtain ⟨r, hs, rfl⟩ := Option.map_eq_some_iff.mp hmap
  have hr := WriteRule.invariant_step h.rule hok hs
  have hstays : Stays B s.rule r → Invariant B ⟨r, s.deref,
      fun t => if r.Active t then s.reads t else [], s.lastCkpt, s.requested, s.untold⟩ :=
    fun hg => h.run_stays hr hg fun _ _ _ _ hreq => Or.inl hreq
  -- the steps of a transaction leave its own `ts_deref` alone, as a thread is in one call at a time
  cases op with
  | threadInit t => exact hstays (stays_threadInit h.ckpts hs)
  | begin t v =>
    exact h.run_tx (h.rule.begin hs) (moves_begin h.rule hs) fun hd => absurd hen hd
  | lock t o kind =>
    exact h.run_tx (h.rule.lock hs) (moves_lock h.rule hs) fun hd => absurd hen hd
  | lockStep t a =>
    refine h.run_tx (h.rule.lockStep hok hs) (moves_lock_step h.rule hs) fun hd => ?_
    have hs' : WriteRule.lockStep B s.rule t a = some r := hs
    rw [WriteRule.lockStep, h.rule.view_eq, VersionChain.lockStep, (h.calls t hd).1] at hs'
    cases hs'
  | dupStep t g =>
    refine h.run_tx (h.rule.dupStep hs) (moves_dupStep hs) fun hd => ?_
    have hs' : WriteRule.dupStep s.rule t g = some r := hs
    unfold WriteRule.dupStep at hs'
    split at hs' <;> cases hs' <;> exact h.calls t hd
  | free t k =>
    exact h.run_tx (h.rule.free hs) (moves_free h.rule hs) fun hd => absurd hen hd
  | endTx t =>
    exact h.run_tx (h.rule.endTx hs) (moves_endTx h.rule hs) fun hd => absurd hen hd
  | commitStep t v =>
    refine h.run_tx (h.rule.commitStep hs) (moves_commit_step h.rule hr hs) fun hd => ?_
    have hs' : WriteRule.commitStep B s.rule t v = some r := hs
    rw [WriteRule.commitStep, h.rule.view_eq, VersionChain.commitStep, (h.calls t hd).1] at hs'
    cases hs'
  | abort t =>
    exact h.run_tx (h.rule.abort hs) (moves_abort hs) fun hd => absurd hen hd
  | abortStep t =>
    refine h.run_tx (h.rule.abortStep hs) (moves_abortStep h.rule hs) fun hd => ?_
    have hs' : WriteRule.abortStep s.rule t = some r := hs
    rw [WriteRule.abortStep, if_neg (by simp [(h.calls t hd).2])] at hs'
    cases hs'
  | qpClock v => exact hstays (stays_qpClock h.rule hs)
  | qpInit => exact hstays (stays_qpInit h.rule hs)
  | qpSkip t => exact hstays (stays_qpSkip h.ckpts h.rule hs)
  | qpDone => exact hstays (stays_qpDone h.rule hap hs)
  | trigger m => exact h.trigger hr hs
  | barrier => exact h.barrier hen hr hs
  | tvStart t m => exact hstays (stays_tvStart h.ckpts h.rule hen.2 hs)
  | tvDrop t k => exact hstays (stays_tvDrop h.ckpts h.rule hs)
  | tvVisit t k => exact hstays (stays_tvVisit h.ckpts h.rule hs)
  | tvStep t => exact hstays (stays_tvStep h.ckpts h.rule hs)
  | tvEnd t => exact h.tvEnd hen hr hs
  | ckStart t => exact hstays (stays_ckStart h.ckpts hs)
  | ckDrop t e => exact hstays (stays_ckDrop h.ckpts h.rule hs)
  | ckVisit t e => exact hstays (stays_ckVisit h.ckpts h.rule hs)
  | ckStep t => exact hstays (stays_ckStep h.ckpts h.rule hok hs)
  | ckEnd t => exact hstays (stays_ckEnd h.ckpts hs)

theorem Invariant.propagate {tvlog : Bool} (hs : propagate s t tvlog = some s') :
    Invariant B s' := by
  unfold SnapshotRead.propagate at hs
  obtain ⟨⟨-, hckpt⟩, hs⟩ := Option.ite_none_right_eq_some.mp hs
  cases hs
  refine ⟨h.rule, h.ckpts, fun u => ?_, fun hph k hk hclk hun hreq => ?_, h.calls, h.ended,
    h.derefOk, h.readOk⟩
  · show Function.update s.lastCkpt t s.rule.lastCkpt u ≤ s.rule.lastCkpt
    rw [Function.update_apply]
    split
    · exact Nat.le_refl _
    · exact h.lastCkpt u
  · -- a log whose request was just made was not visited
    have hph' : s.rule.phase = .reclaim .ckpt := hph
    have hreq' : Function.update s.requested t tvlog (s.rule.owner k) = false := hreq
    by_cases hkt : s.rule.owner k = t
    · rw [hkt, Function.update_self, hckpt hph'] at hreq'
      cases hreq'
    · rw [Function.update_of_ne hkt] at hreq'
      exact h.done hph' k hk hclk (fun hmem => hun ((List.mem_erase_of_ne hkt).mpr hmem)) hreq'

end

/-! ### Runs -/

theorem checkpoints_initial : Checkpoints B WriteRule.initial where
  announced := ⟨fun _ => Or.inl rfl, by simp [WriteRule.initial, VersionChain.initial]⟩
  prevs := by simp [Prevs, WriteRule.initial, VersionChain.initial]
  clk := fun _ _ => Nat.le_refl _
  owner := by simp [WriteRule.initial, VersionChain.initial]
  le := Nat.le_refl _
  gap := by simp [WriteRule.initial, WriteRule.Reclaiming]
  mode := by simp [WriteRule.initial, mode]
  busy := by simp [WriteRule.initial]
  detached := by simp [WriteRule.initial]
  passed := by simp [WriteRule.initial]
  below := by simp [WriteRule.initial]
  bottom := by simp [WriteRule.initial, VersionChain.initial]
  writes := by simp [WriteRule.initial]

theorem invariant_initial : Invariant B initial where
  rule := WriteRule.invariant_initial
  ckpts := checkpoints_initial
  lastCkpt := fun _ => Nat.le_refl _
  done := by simp [initial, WriteRule.initial]
  calls := by simp [initial]
  ended := fun _ _ => rfl
  derefOk := fun _ => trivial
  readOk := by simp [initial]

theorem invariant_step {op : Op} (h : Invariant B s) (hok : Orderly B s op)
    (hs : step B s op = some s') : Invariant B s' := by
  cases op with
  | run op => exact h.run hok.1 hok.2 hs
  | propagate t tvlog => exact h.propagate hs
  | deref t o => exact h.deref hs
  | derefStep t g => exact h.derefStep hok hs

theorem invariant_of_reach (h : Reach B (Orderly B) s) : Invariant B s := by
  refine h.invariant (fun s hs => ?_) fun s op s' hi hok hs => invariant_step hi hok hs
  rw [hs]
  exact invariant_initial

/-! ### Versions in a snapshot -/

section

variable (h : Invariant B s)

include h

/-- A version below the local clock of a running transaction that has no stamp yet is the
newest one: its commit has read the clock after all others. -/
theorem Invariant.clk_le (hj : (s.rule.chain.copies j).inserted = true)
    (hn : (s.rule.chain.copies n).inserted = true)
    (hobj : (s.rule.chain.copies j).obj = (s.rule.chain.copies n).obj)
    (hle : (s.rule.chain.copies j).wrtClk ≤ (s.rule.chain.copies n).wrtClk)
    (hnm : s.clk n ≠ maxVersion) : s.clk j ≤ s.clk n := by
  have hi := h.rule.chain
  have hws : ∀ {k}, (s.rule.chain.copies k).inserted = true →
      (s.rule.chain.copies k).wrtClk ≠ maxVersion → s.clk k = (s.rule.chain.copies k).wrtClk :=
    fun hk hne => hi.chains.stamp _ (h.rule.lt hk) hne
  by_cases hcn : (s.rule.chain.copies n).wrtClk = maxVersion
  · by_cases hjn : j = n
    · exact Nat.le_of_eq (by rw [hjn])
    · -- the commit of `n` is in `ws_unlock_commit`
      have hlt := h.rule.lt hn
      have hfree : (s.rule.slot n).freed = false := by
        by_contra hf
        obtain ⟨r, hr, -⟩ := h.rule.slots.freed n (by simpa using hf) hn
        have := (h.rule.slots.passed n r hr).2.1
        have := h.rule.masters.le
        omega
      obtain ⟨u, hu⟩ := h.rule.flight n hlt hcn hfree
      obtain ⟨W, ks, hpc, hheld⟩ := h.rule.stamp_of_clk hu hnm
      have hp := (hi.threads u).pc
      rw [hpc] at hp
      obtain ⟨-, -, -, hpub, hW, -⟩ := hp
      have hclkn : s.clk n = W := hpub _ ((hi.threads u).holds n hheld).ws
      obtain ⟨-, hidle⟩ := (h.rule.tx u).of_busy (by simp [hpc]) (by simp [hpc])
      have hcop := ((h.rule.tx u).held n hheld).2
      rw [hidle] at hcop
      obtain ⟨d, hd, hclk⟩ := hcop.resolve_left (by simp [WriteRule.Dup.target])
      have hfol := h.rule.history.rule n d hd (Or.inl hn)
      rcases hfol.rest j hj hobj hjn with h1 | ⟨m, hm, h1⟩
      · have := h.rule.history.le j hj
        omega
      · have hsrc := (hfol.src m hm).2.2
        have hmax := (hi.threads u).localClk
        rw [hws hj (by omega), hclkn]
        omega
  · have hle' := h.rule.history.le n hn
    rw [hws hn hcn, hws hj (by omega)]
    exact hle

theorem Invariant.newest (hx : ReadOk B s.rule t x) : Newest B s t x.obj x.ver where
  visible := by
    intro k hk
    obtain ⟨h1, h2, h3⟩ := hx.seen k hk
    exact ⟨h1, h2, ltClock_iff.mpr h3⟩
  newest := by
    rintro j ⟨h1, h2, h3⟩
    rw [ltClock_iff] at h3
    have hmax := (h.rule.chain.threads t).localClk
    have hsee : ¬ Unseen B s.rule.chain j (s.rule.chain.threads t).localClk := by
      intro hu
      have := hu.clk
      rw [State.clk, State.localClk] at h3
      omega
    obtain ⟨n, hn, hle⟩ := hx.covers j h1 h2 hsee
    obtain ⟨h4, h5, h6⟩ := hx.seen n hn
    refine ⟨n, hn, h.clk_le h1 h4 (h2.trans h5.symm) hle ?_⟩
    rw [State.clk]
    omega

theorem Invariant.intact (hx : ReadOk B s.rule t x) : Intact s x := by
  have hk := hx.kept
  unfold Intact
  cases hp : x.place with
  | copy k =>
    rw [hp] at hk
    exact ⟨hk.1.kept, by rw [h.rule.look_eq hk.1]; exact hk.2⟩
  | master m =>
    rw [hp] at hk
    cases m with
    | org => exact hk.2
    | entry e => exact ⟨hk.1.kept, hk.2⟩

/-- The newest version in a snapshot is one version. -/
theorem Invariant.ver_eq (hx : ReadOk B s.rule t x) {v : Option ℕ}
    (hv : ∀ n, v = some n → Seen B s.rule t x.obj n)
    (hcov : ∀ m, x.ver = some m → ∃ n, v = some n ∧
      (s.rule.chain.copies m).wrtClk ≤ (s.rule.chain.copies n).wrtClk) : v = x.ver := by
  have hsee : ∀ n, v = some n → ∃ m, x.ver = some m ∧
      (s.rule.chain.copies n).wrtClk ≤ (s.rule.chain.copies m).wrtClk := by
    intro n hn
    obtain ⟨h1, h2, h3⟩ := hv n hn
    refine hx.covers n h1 h2 fun hu => ?_
    have := hu.clk
    omega
  cases hxv : x.ver with
  | none =>
    cases hvv : v with
    | none => rfl
    | some n =>
      obtain ⟨m, hm, -⟩ := hsee n hvv
      rw [hxv] at hm
      cases hm
  | some m =>
    obtain ⟨n, hn, hle⟩ := hcov m hxv
    obtain ⟨m', hm', hle'⟩ := hsee n hn
    rw [hxv, Option.some_inj] at hm'
    subst hm'
    have h1 := hv n hn
    have h2 := hx.seen m hxv
    rw [hn]
    by_contra hne
    refine h.rule.history.clk_ne h2.inserted h1.inserted (h1.obj.trans h2.obj.symm) ?_
      (Nat.le_antisymm hle' hle)
    rintro rfl
    exact hne rfl

end

/-! ### Snapshots -/

/-- The object was freed in the snapshot of the thread. -/
def Freed (B : ℕ) (s : State) (t o : ℕ) : Prop :=
  ∃ k < s.rule.chain.numCopies, (s.rule.chain.copies k).obj = o ∧
    (s.rule.chain.copies k).kind = .free ∧ ltClock B (s.rule.chain.copies k).wrtClk (s.localClk t)

instance (B : ℕ) (s : State) (t o : ℕ) : Decidable (Freed B s t o) :=
  inferInstanceAs (Decidable (∃ k < s.rule.chain.numCopies, _))

/-- A tombstone is that of an object which was freed in the snapshots of all that run. -/
theorem Invariant.not_tombstoned (h : Invariant B s) (hact : s.rule.Active t)
    (hfree : ¬ Freed B s t o) : ¬ s.rule.Tombstoned o := by
  rintro ⟨e, he, heo, htomb⟩
  obtain ⟨k, hko, hk⟩ := h.rule.tombs.grave e he htomb
  have hle := (h.rule.qp.active t hact).2.2
  have hclk := hk.clk
  refine hfree ⟨k, hk.lt, hko.trans heo, hk.kind, ltClock_iff.mpr ?_⟩
  rw [State.localClk]
  omega

/-- A transaction that has read something is running, and what it read is as it should be unless
the object was freed. -/
theorem Invariant.read (h : Invariant B s) (hx : x ∈ s.reads t) (hfree : ¬ Freed B s t x.obj) :
    ReadOk B s.rule t x := by
  refine h.readOk t x hx (h.not_tombstoned (t := t) ?_ hfree)
  by_contra hact
  rw [h.ended t hact] at hx
  cases hx

/-- A run in which a version is read before and after its checkpoint. -/
def runReads : List Op := List.flatten [
  (List.flatten [[.threadInit 1, .threadInit 2, .begin 1 10], WriteRule.runLock 1 5 0,
    WriteRule.runCommit 1 20, WriteRule.runDetect 30, [.begin 2 40]]).map .run,
  [.deref 2 5, .derefStep 2 none, .derefStep 2 none],
  [.run (.trigger .ckpt), .propagate 1 true, .propagate 2 true],
  (WriteRule.runCkpt 1 0).map .run,
  [.deref 2 5, .derefStep 2 none]]

/-- The copy 0 is checkpointed while an uncommitted version hides it from the detach.  The
checkpoint is published; then the thread 2 begins, with the `__last_ckpt` of the last trigger,
and goes on to the copy 0, which the next reclamation gives back. -/
theorem snapshot_read_fails : ∃ s, Reach 0 (RunsOrderly 0) s ∧
    ∃ t x, x ∈ s.reads t ∧ ¬ Intact s x := by
  have hd : (Run.exec (step 0) (RunsOrderly 0) initial (List.flatten [
      (List.flatten [[.threadInit 1, .threadInit 2, .threadInit 3, .begin 1 1],
        WriteRule.runLock 1 5 0, WriteRule.runCommit 1 3, WriteRule.runDetect 4,
        [.begin 3 5, .lock 3 5 .copy, .lockStep 3 0, .lockStep 3 0, .lockStep 3 1, .lockStep 3 0,
          .lockStep 3 0, .dupStep 3 none, .endTx 3, .commitStep 3 0, .commitStep 3 0,
          .commitStep 3 0, .trigger .ckpt]]).map .run,
      [.propagate 1 true, .propagate 2 true, .propagate 3 true],
      [.tvStart 1 .ckpt, .tvVisit 1 0, .tvStep 1, .tvStep 1, .tvEnd 1, .tvStart 2 .ckpt, .tvEnd 2,
        .tvStart 3 .ckpt, .tvEnd 3, .barrier, .qpClock 6, .qpInit, .begin 2 7, .commitStep 3 8,
        .commitStep 3 0, .commitStep 3 0, .commitStep 3 0, .commitStep 3 0, .qpDone].map .run,
      [.deref 2 5, .derefStep 2 none, .derefStep 2 none, .derefStep 2 none, .derefStep 2 none,
        .derefStep 2 none],
      [.run (.trigger .ckpt), .propagate 1 true, .run (.tvStart 1 .ckpt), .run (.tvDrop 1 0)]])).map
      (fun s => decide (s.reads 2 = [⟨5, .copy 0, some 0⟩] ∧ (s.rule.slot 0).freed = true)) =
        some true := by
    decide +kernel
  obtain ⟨s, hr, h1, h2⟩ : ∃ s, Reach 0 (RunsOrderly 0) s ∧ _ :=
    Run.Reach.exists_of_exec (.init rfl) hd
  refine ⟨s, hr, 2, ⟨5, .copy 0, some 0⟩, by simp [h1], fun hk => ?_⟩
  have hk' : (s.rule.slot 0).freed = false ∧ _ := hk
  rw [h2] at hk'
  cases hk'.1

/-- The thread 1 has read its commit clock, but `pending_wrt_clk` is not stored yet, when the
thread 2 begins and reads: the version is in its snapshot. -/
theorem snapshot_read_misses : ∃ s, Reach 0 (RunsOrderly 0) s ∧
    ∃ t x, x ∈ s.reads t ∧ ¬ Newest 0 s t x.obj x.ver := by
  have hd : (Run.exec (step 0) (RunsOrderly 0) initial (List.flatten [
      (List.flatten [[.threadInit 1, .threadInit 2, .begin 1 10], WriteRule.runLock 1 5 0,
        (WriteRule.runCommit 1 20).take 5, [.begin 2 30]]).map .run,
      .deref 2 5 :: List.replicate 6 (.derefStep 2 none),
      ((WriteRule.runCommit 1 20).drop 5).map .run])).map (fun s =>
      decide (s.reads 2 = [⟨5, .master .org, none⟩] ∧ (s.rule.chain.copies 0).inserted = true ∧
        (s.rule.chain.copies 0).obj = 5 ∧ ltClock 0 (s.clk 0) (s.localClk 2))) = some true := by
    decide +kernel
  obtain ⟨s, hr, h1, h2, h3, h4⟩ : ∃ s, Reach 0 (RunsOrderly 0) s ∧ _ :=
    Run.Reach.exists_of_exec (.init rfl) hd
  refine ⟨s, hr, 2, ⟨5, .master .org, none⟩, by simp [h1], fun hn => ?_⟩
  obtain ⟨k, hk, -⟩ := hn.newest 0 ⟨h2, h3, h4⟩
  cases hk

/-- The copy that a `ts_deref` is about to read. -/
def DerefPc.ptr : DerefPc → Option ℕ
  | .idle | .curAct _ => none
  | .loadClks _ k | .wrtClk _ k _ | .pending _ k _ | .wait _ k _ | .next _ k _ | .older _ k _ =>
    some k

/-- Two reads of an object by a transaction find one version. -/
theorem repeatable_read (h : Reach B (Orderly B) s) (hx : x ∈ s.reads t) (hy : y ∈ s.reads t)
    (ho : x.obj = y.obj) (hfree : ¬ Freed B s t x.obj) : x.ver = y.ver := by
  have hi := invariant_of_reach h
  have hxok := hi.read hx hfree
  have hyok := hi.read hy (ho ▸ hfree)
  refine hi.ver_eq hyok (fun n hn => ?_) fun m hm => ?_
  · rw [← ho]
    exact hxok.seen n hn
  · obtain ⟨h1, h2, h3⟩ := hyok.seen m hm
    refine hxok.covers m h1 (h2.trans ho.symm) fun hu => ?_
    have := hu.clk
    omega

end TimeStone.SnapshotRead
