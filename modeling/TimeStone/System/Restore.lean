/-
Recovery of the checkpoint logs restores the published checkpoint.

When the process stops, the original masters, the entries between the head and the tail of
every checkpoint log and the last checkpoint clock survive.  Recovery makes the newest
entry that is not beyond the checkpoint the current master of its object.

The image is wrong in runs of four kinds.  A zombie is checkpointed in a round that
publishes nothing, and its versions are written back.  The tombstone of a free beyond the
checkpoint keeps an older version from being written back.  A log drops an entry while
another log still holds an older one of the same object (`recovery_goes_back`).  The log of
a zombie is reclaimed twice in a round, so that an entry is dropped before the one that
replaces it is covered.  In all other runs in which the published checkpoint is complete,
recovery restores it (`recovery_restores_ckpt`).

* `RestoreOk` — the condition on the steps;
* `Rounds` — a checkpoint log of a live thread is reclaimed once in a round;
* `Image` — what the masters and the logs hold.
-/
import TimeStone.System.Freeing
import TimeStone.System.Complete
import TimeStone.Lib.Newest

namespace TimeStone.System

variable {α β : Type*} {org : ℕ → α} {B t W k : ℕ} {s s' : State α β} {c : List ℕ}

/-! ### Recovery -/

/-- The entries of the checkpoint log of `t` that `ckptlog_recovery` visits. -/
def State.replayed (s : State α β) (t : ℕ) : List ℕ :=
  (s.ckptlog t).takeWhile fun e => (s.entries e).ckptSClk ≤ s.nvmLastCkpt

/-- The entry that `ckptlog_recovery` makes the current master of every object. -/
def State.ckptlogRecovery (s : State α β) : ℕ → Option ℕ :=
  ((s.tids.flatMap s.replayed).map fun e => ((s.entries e).obj, e)).foldl
    (Newest.keep fun e => (s.entries e).wrtClk) fun _ => none

/-- The content of `o` after recovery. -/
def State.recovered (s : State α β) (o : ℕ) : Option α :=
  match s.ckptlogRecovery o with
  | some e => (s.entries e).content
  | none => s.master o

/-- The object is freed by a transaction that the checkpoint covers. -/
def State.FreeCovered (s : State α β) (B o : ℕ) : Prop :=
  match s.freeClk o with
  | some W => ltClock B W s.nvmLastCkpt
  | none => False

instance (s : State α β) (B o : ℕ) : Decidable (s.FreeCovered B o) := by
  unfold State.FreeCovered
  induction s.freeClk o using Option.casesOn <;> infer_instance

/-! ### The condition -/

/-- No copy in the transient version log of `t` has to be checkpointed now. -/
def State.NothingDue (s : State α β) (B t : ℕ) : Prop :=
  ∀ w ∈ s.tvOld t ++ s.tvNew t, ltClock B w.wrtClk (s.clks t).qp0 →
    ∀ k ∈ w.copies, ¬ s.NeedsCkpt B t k

instance (s : State α β) (B t : ℕ) : Decidable (s.NothingDue B t) :=
  inferInstanceAs (Decidable (∀ w ∈ s.tvOld t ++ s.tvNew t, _ → ∀ k ∈ w.copies, _))

/-- The free records that the first loop of `tvlog_reclaim_x` is going to process are
covered by the published checkpoint. -/
def State.FreesCovered (s : State α β) (B t : ℕ) : Prop :=
  ∀ w ∈ s.tvOld t, ∀ k ∈ w.copies, (s.copies k).kind = .free → s.status k ≠ .tombstoneMarked →
    ltClock B (s.copies k).wrtClk s.nvmLastCkpt

instance (s : State α β) (B t : ℕ) : Decidable (s.FreesCovered B t) :=
  inferInstanceAs (Decidable (∀ w ∈ s.tvOld t, ∀ k ∈ w.copies, _))

/-- No other checkpoint log holds an older entry of an object than the one that the first
loop of `ckptlog_reclaim_x` is going to drop. -/
def State.OldestFirst (s : State α β) (B t : ℕ) : Prop :=
  ∀ e ∈ s.ckOld t, ¬ s.FreeCovered B (s.entries e).obj → ∀ t' ∈ s.tids, t' ≠ t →
    ∀ e' ∈ s.ckptlog t', (s.entries e').obj = (s.entries e).obj → e ≤ e'

instance (s : State α β) (B t : ℕ) : Decidable (s.OldestFirst B t) :=
  inferInstanceAs (Decidable (∀ e ∈ s.ckOld t, _ → ∀ t' ∈ s.tids, _ → ∀ e' ∈ s.ckptlog t', _))

/-- The round publishes a checkpoint at its end. -/
def Phase.Ckpting : Phase → Prop
  | .trigger r _ | .reapStart r | .reap r _ | .help r | .barrier r => r.tvlog = .ckpt
  | _ => False

instance (p : Phase) : Decidable p.Ckpting := by
  unfold Phase.Ckpting
  induction p using Phase.casesOn <;> infer_instance

/-- The QP thread is between two rounds. -/
def Phase.Between : Phase → Prop
  | .idle | .waiting _ => True
  | _ => False

/-- The condition on the steps. -/
def RestoreOk (B : ℕ) (s : State α β) (op : Op α β) : Prop :=
  LeavesSettled B s op ∧
  match op with
  | .tvlogReclaim t => (s.req t).tvlog ≠ .none → s.FreesCovered B t
  | .ckptlogReclaim t _ => (s.req t).ckptlog ≠ .none → s.OldestFirst B t
  | .reap t => (s.phase.Ckpting ∨ (s.syncClks t).NothingDue B t) ∧ s.FreesCovered B t ∧
      s.OldestFirst B t ∧ s.ckRound t < s.round
  | _ => True

instance (s : State α β) (op : Op α β) : Decidable (RestoreOk B s op) := by
  unfold RestoreOk
  induction op using Op.casesOn <;> infer_instance

/-- In which rounds the checkpoint logs were reclaimed. -/
structure Rounds (s : State α β) : Prop where
  le : ∀ t, s.ckRound t ≤ s.round
  next : s.phase = .detected → ∀ t, s.ckRound t < s.round
  trig : ∀ r done, s.phase = .trigger r done → ∀ t, s.InLive t → t ∉ done →
    s.ckRound t < s.round ∧ s.req t = .none
  pending : ∀ t, s.InLive t → (s.req t).ckptlog ≠ .none → s.ckRound t < s.round

/-- What survives when the process stops.  `R t` says that the checkpoint log of `t` was
reclaimed in this round. -/
structure Image (B : ℕ) (s : State α β) (R : ℕ → Prop) : Prop where
  -- tombstones and frees
  tomb : ∀ e, s.tombstone e = true → s.FreeCovered B (s.entries e).obj
  freed : ∀ o, o ∈ s.freed ∨ (∃ t, o ∈ s.ckFree t) → s.FreeCovered B o
  record : ∀ o, s.freeClk o ≠ none → ∃ k < s.numCopies, (s.copies k).kind = .free ∧
    (s.copies k).obj = o
  -- entries and versions
  version : ∀ o, ∀ k ∈ s.hist o, s.status k = .detached → ∃ e < s.numEntries,
    (s.entries e).obj = o ∧ (s.entries e).isTomb = false ∧
      (s.entries e).wrtClk = (s.copies k).wrtClk
  src : ∀ e < s.numEntries, (s.entries e).isTomb = false → ∃ k ∈ s.hist (s.entries e).obj,
    s.status k = .detached ∧ (s.copies k).wrtClk = (s.entries e).wrtClk
  below : ∀ e < s.numEntries, (s.entries e).isTomb = false →
    ltClock B (s.entries e).wrtClk (s.entries e).ckptSClk
  late : ∀ e < s.numEntries, (s.entries e).isTomb = false →
    (s.entries e).ckptSClk ≤ s.nvmLastCkpt ∨
      gteClock B (s.entries e).wrtClk s.nvmLastCkpt ∧
        (s.entries e).ckptSClk = s.qpClks.qp0 ∧ s.phase.Ckpting
  -- the order of the entries of an object
  order : ∀ e₂ < s.numEntries, ∀ e₁ < e₂, (s.entries e₁).obj = (s.entries e₂).obj →
    ¬ s.FreeCovered B (s.entries e₂).obj → (s.entries e₁).wrtClk < (s.entries e₂).wrtClk
  cur : ∀ e < s.numEntries, ¬ s.FreeCovered B (s.entries e).obj →
    (∃ e', s.curAct (s.entries e).obj = some e' ∧ e ≤ e') ∨
      s.curAct (s.entries e).obj = none ∧ (s.entries e).wrtClk ≤ s.masterWrt (s.entries e).obj
  -- masters and dropped entries
  master : ∀ o, s.masterWrt o = 0 ∨ ltClock B (s.masterWrt o) s.nvmLastCkpt
  placed : ∀ e < s.numEntries, s.dropped e = true ∨ ∃ t, e ∈ s.ckptlog t
  oldest : ∀ e, s.dropped e = true → ¬ s.FreeCovered B (s.entries e).obj →
    ∀ e' < e, (s.entries e').obj = (s.entries e).obj → s.dropped e' = true
  gone : ∀ e, s.dropped e = true → ¬ s.FreeCovered B (s.entries e).obj →
    (s.entries e).wrtClk ≤ s.masterWrt (s.entries e).obj ∨
      ∃ e' < s.numEntries, e < e' ∧ (s.entries e').obj = (s.entries e).obj ∧
        (s.entries e').ckptSClk ≤ s.nvmLastCkpt
  passed : ∀ t, ∀ e ∈ s.ckOld t, ¬ s.FreeCovered B (s.entries e).obj →
    (s.entries e).wrtClk ≤ s.masterWrt (s.entries e).obj ∨
      ∃ e' < s.numEntries, e < e' ∧ (s.entries e').obj = (s.entries e).obj ∧
        ((s.entries e').ckptSClk ≤ s.nvmLastCkpt ∨ R t)
  -- the clocks of the rounds
  qps : s.qpClks.qp2 ≤ s.qpClks.qp1 ∧ s.qpClks.qp1 ≤ s.qpClks.qp0 ∧
    (s.phase.Between ∨ s.qpClks.qp1 + B < s.qpClks.qp0)

/-! ### Recovery finds the newest entry -/

/-- The entries of a log are in the order of their checkpoints, so those that are visited
are those that are not beyond the last one. -/
theorem mem_replayed (hl : CkptLogs s) {e : ℕ} :
    e ∈ s.replayed t ↔ e ∈ s.ckptlog t ∧ (s.entries e).ckptSClk ≤ s.nvmLastCkpt := by
  have hlt : ∀ e ∈ s.ckptlog t, e < s.numEntries := fun e he => (hl.mem t e he).1
  have hsorted := hl.sorted t
  unfold State.replayed
  generalize s.ckptlog t = es at hlt hsorted
  induction es with
  | nil => simp
  | cons x es ih =>
    obtain ⟨hx, hes⟩ := List.pairwise_cons.mp hsorted
    have hrest : e ∈ es.takeWhile (fun e => (s.entries e).ckptSClk ≤ s.nvmLastCkpt) ↔
        e ∈ es ∧ (s.entries e).ckptSClk ≤ s.nvmLastCkpt :=
      ih (fun e he => hlt e (List.mem_cons_of_mem _ he)) hes
    by_cases hle : (s.entries x).ckptSClk ≤ s.nvmLastCkpt
    · rw [List.takeWhile_cons_of_pos (by simpa using hle), List.mem_cons, List.mem_cons, hrest]
      constructor
      · rintro (rfl | h)
        · exact ⟨Or.inl rfl, hle⟩
        · exact ⟨Or.inr h.1, h.2⟩
      · rintro ⟨rfl | h, h'⟩
        · exact Or.inl rfl
        · exact Or.inr ⟨h, h'⟩
    · rw [List.takeWhile_cons_of_neg (by simpa using hle)]
      constructor
      · exact fun h => absurd h List.not_mem_nil
      · rintro ⟨he, hle'⟩
        rcases List.mem_cons.mp he with rfl | he'
        · exact absurd hle' hle
        · -- the later entries are beyond the checkpoint as well
          have := hl.mono e (hlt e he) x (le_of_lt (hx e he'))
          omega

/-- The entries that `ckptlog_recovery` visits. -/
theorem mem_recovery (hl : CkptLogs s) {o e : ℕ} :
    (o, e) ∈ ((s.tids.flatMap s.replayed).map fun e => ((s.entries e).obj, e)) ↔
      (s.entries e).obj = o ∧ (∃ t, e ∈ s.ckptlog t) ∧ (s.entries e).ckptSClk ≤ s.nvmLastCkpt := by
  simp only [List.mem_map, Prod.mk.injEq, List.mem_flatMap, mem_replayed hl]
  constructor
  · rintro ⟨e', ⟨t, -, he, hle⟩, ho, rfl⟩
    exact ⟨ho, ⟨t, he⟩, hle⟩
  · rintro ⟨ho, ⟨t, he⟩, hle⟩
    exact ⟨e, ⟨t, (hl.mem t e he).2.2, he, hle⟩, ho, rfl⟩

theorem isNewest_recovery (s : State α β) (o : ℕ) :
    Newest.IsNewest (fun e => (s.entries e).wrtClk)
      ((s.tids.flatMap s.replayed).map fun e => ((s.entries e).obj, e)) o
      (s.ckptlogRecovery o) := by
  have hempty : ∀ o, Newest.IsNewest (fun e => (s.entries e).wrtClk) ([] : List (ℕ × ℕ)) o none :=
    fun _ _ => List.not_mem_nil
  exact Newest.isNewest_foldl _ [] _ hempty o

/-- A version is known by its write clock. -/
theorem Chains.eq_of_wrtClk (h : Chains B s) {o j k : ℕ} (hj : j ∈ s.hist o) (hk : k ∈ s.hist o)
    (he : (s.copies j).wrtClk = (s.copies k).wrtClk) : j = k := by
  obtain ⟨newer, older, hs⟩ := List.append_of_mem hk
  obtain ⟨hnew, hold⟩ := h.split_lt hs
  rw [hs, List.mem_append, List.mem_cons] at hj
  rcases hj with hj | rfl | hj
  · have := hnew j hj
    rw [ltClock_iff] at this
    omega
  · rfl
  · have := hold j hj
    rw [ltClock_iff] at this
    omega

section Restores

variable {R : ℕ → Prop} {o : ℕ}

theorem Image.isTomb_eq_false (h : Image B s R) (hcont : Contents org s) {e : ℕ}
    (he : e < s.numEntries) (ho : ¬ s.FreeCovered B (s.entries e).obj) :
    (s.entries e).isTomb = false := by
  by_contra ht
  exact ho (h.tomb e (hcont.tomb e he (by simpa using ht)))

/-- An entry that is not beyond the checkpoint has a version that the checkpoint covers. -/
theorem Image.version_of_entry (h : Image B s R) (hcont : Contents org s) {e : ℕ}
    (he : e < s.numEntries) (ho : ¬ s.FreeCovered B (s.entries e).obj)
    (hle : (s.entries e).ckptSClk ≤ s.nvmLastCkpt) :
    ∃ j ∈ s.hist (s.entries e).obj, (s.copies j).wrtClk = (s.entries e).wrtClk ∧
      (s.copies j).content = (s.entries e).content ∧
      ltClock B (s.copies j).wrtClk s.nvmLastCkpt := by
  have ht := h.isTomb_eq_false hcont he ho
  rcases hcont.entry e he with htomb | ⟨j, hj, h1, h2⟩
  · rw [ht] at htomb
    contradiction
  · refine ⟨j, hj, h1, h2, ?_⟩
    have hlt := h.below e he ht
    rw [h1]
    rw [ltClock_iff] at *
    omega

/-- The newest version that the checkpoint covers has an entry that is not beyond it. -/
theorem Image.entry_of_version (h : Image B s R) (hc : Core B s t W c) (hcov : Cover B s)
    (hk : k ∈ s.hist o) (hlt : ltClock B (s.copies k).wrtClk s.nvmLastCkpt)
    (hnew : ∀ j ∈ s.hist o, ltClock B (s.copies j).wrtClk s.nvmLastCkpt →
      (s.copies j).wrtClk ≤ (s.copies k).wrtClk) :
    ∃ e < s.numEntries, (s.entries e).obj = o ∧ (s.entries e).wrtClk = (s.copies k).wrtClk ∧
      (s.entries e).ckptSClk ≤ s.nvmLastCkpt := by
  have hd : s.status k = .detached := by
    refine hcov.detached hc hk ?_ ?_
    · rw [← hc.clocks.nvm]
      exact hlt
    · rw [← hc.clocks.nvm]
      exact hnew
  obtain ⟨e, he, h1, h2, h3⟩ := h.version o k hk hd
  refine ⟨e, he, h1, h3, (h.late e he h2).resolve_right fun hge => ?_⟩
  rw [h3] at hge
  exact hge.1 hlt

/-- Where the entry of a version was dropped, the original master holds a version that is
not older, if the checkpoint covers no newer one. -/
theorem Image.le_masterWrt (h : Image B s R) (hcont : Contents org s) {e : ℕ}
    (hd : s.dropped e = true) (ho : ¬ s.FreeCovered B (s.entries e).obj)
    (hnew : ∀ j ∈ s.hist (s.entries e).obj, ltClock B (s.copies j).wrtClk s.nvmLastCkpt →
      (s.copies j).wrtClk ≤ (s.entries e).wrtClk) :
    (s.entries e).wrtClk ≤ s.masterWrt (s.entries e).obj := by
  rcases h.gone e hd ho with hle | ⟨e', he', hlt, hobj, hck⟩
  · exact hle
  · -- a newer entry that is not beyond the checkpoint has a newer version
    have ho' : ¬ s.FreeCovered B (s.entries e').obj := by rw [hobj]; exact ho
    obtain ⟨j, hj, h1, -, h2⟩ := h.version_of_entry hcont he' ho' hck
    have hord := h.order e' he' e hlt hobj.symm ho'
    rw [hobj] at hj
    have := hnew j hj h2
    omega

/-- The content of an original master with the write clock of a version that the
checkpoint covers. -/
theorem Image.master_content (h : Image B s R) (hc : Core B s t W c) (hcont : Contents org s)
    (ho : ¬ s.FreeCovered B o) (hk : k ∈ s.hist o)
    (hle : (s.copies k).wrtClk ≤ s.masterWrt o)
    (hnew : ∀ j ∈ s.hist o, ltClock B (s.copies j).wrtClk s.nvmLastCkpt →
      (s.copies j).wrtClk ≤ (s.copies k).wrtClk) : s.master o = (s.copies k).content := by
  have hpos := hcont.pos o k hk
  have hfreed : o ∉ s.freed := fun hf => ho (h.freed o (Or.inl hf))
  rcases hcont.master o hfreed with ⟨h0, -⟩ | ⟨j, hj, h1, h2⟩
  · omega
  · have hlt := (h.master o).resolve_left (by omega)
    rw [← h1] at hlt hle
    have hle' := hnew j hj hlt
    rw [← h2, hc.chains.eq_of_wrtClk hj hk (le_antisymm hle' hle)]

/-- Recovery restores the newest version that the checkpoint covers. -/
theorem Image.recovered_eq (h : Image B s R) (hc : Core B s t W c) (hl : CkptLogs s)
    (hcont : Contents org s) (hcov : Cover B s) (ho : ¬ s.FreeCovered B o) (hk : k ∈ s.hist o)
    (hlt : ltClock B (s.copies k).wrtClk s.nvmLastCkpt)
    (hnew : ∀ j ∈ s.hist o, ltClock B (s.copies j).wrtClk s.nvmLastCkpt →
      (s.copies j).wrtClk ≤ (s.copies k).wrtClk) : s.recovered o = (s.copies k).content := by
  obtain ⟨e, he, hobj, hwrt, hck⟩ := h.entry_of_version hc hcov hk hlt hnew
  have hoe : ¬ s.FreeCovered B (s.entries e).obj := by rw [hobj]; exact ho
  have hnewest := isNewest_recovery s o
  unfold State.recovered
  rcases hr : s.ckptlogRecovery o with _ | x
  · -- nothing is found, so the entry was dropped
    rw [hr] at hnewest
    have hd : s.dropped e = true := by
      refine (h.placed e he).resolve_right fun hin => ?_
      exact hnewest e ((mem_recovery hl).mpr ⟨hobj, hin, hck⟩)
    have hle := h.le_masterWrt hcont hd hoe (by rw [hobj, hwrt]; exact hnew)
    rw [hobj, hwrt] at hle
    exact h.master_content hc hcont ho hk hle hnew
  · rw [hr] at hnewest
    obtain ⟨hx, hmax⟩ := hnewest
    obtain ⟨hxo, ⟨t', hxt⟩, hxck⟩ := (mem_recovery hl).mp hx
    have hxlt := (hl.mem t' x hxt).1
    have hxe : ¬ s.FreeCovered B (s.entries x).obj := by rw [hxo]; exact ho
    obtain ⟨j, hj, h1, h2, h3⟩ := h.version_of_entry hcont hxlt hxe hxck
    rw [hxo] at hj
    have hle : (s.copies j).wrtClk ≤ (s.copies k).wrtClk := hnew j hj h3
    -- the entry of the newest version is found, because an older one is
    have hge : (s.copies k).wrtClk ≤ (s.copies j).wrtClk := by
      rcases h.placed e he with hd | hin
      · by_contra hgt
        rcases Nat.lt_or_ge x e with hxe' | hxe'
        · have hdx := h.oldest e hd hoe x hxe' (hxo.trans hobj.symm)
          rw [(hl.mem t' x hxt).2.1] at hdx
          contradiction
        · rcases Nat.lt_or_eq_of_le hxe' with hxe' | rfl
          · have := h.order x hxlt e hxe' (hobj.trans hxo.symm) hxe
            omega
          · omega
      · have hw : (s.entries e).wrtClk ≤ (s.entries x).wrtClk :=
          hmax e ((mem_recovery hl).mpr ⟨hobj, hin, hck⟩)
        omega
    show (s.entries x).content = _
    rw [← h2, hc.chains.eq_of_wrtClk hj hk (le_antisymm hle hge)]

/-- Recovery leaves an object alone that has no version that the checkpoint covers. -/
theorem Image.recovered_org (h : Image B s R) (hl : CkptLogs s) (hcont : Contents org s)
    (ho : ¬ s.FreeCovered B o)
    (hnone : ∀ k ∈ s.hist o, ¬ ltClock B (s.copies k).wrtClk s.nvmLastCkpt) :
    s.recovered o = some (org o) := by
  have hnewest := isNewest_recovery s o
  unfold State.recovered
  rcases hr : s.ckptlogRecovery o with _ | x
  · have hfreed : o ∉ s.freed := fun hf => ho (h.freed o (Or.inl hf))
    rcases hcont.master o hfreed with ⟨-, hm⟩ | ⟨j, hj, h1, h2⟩
    · exact hm
    · have hpos := hcont.pos o j hj
      have hlt := (h.master o).resolve_left (by omega)
      rw [← h1] at hlt
      exact absurd hlt (hnone j hj)
  · rw [hr] at hnewest
    obtain ⟨hxo, ⟨t', hxt⟩, hxck⟩ := (mem_recovery hl).mp hnewest.1
    have hxe : ¬ s.FreeCovered B (s.entries x).obj := by rw [hxo]; exact ho
    obtain ⟨j, hj, -, -, h3⟩ := h.version_of_entry hcont (hl.mem t' x hxt).1 hxe hxck
    rw [hxo] at hj
    exact absurd h3 (hnone j hj)

end Restores

/-! ### Frames -/

/-- A state in which the logs, the masters and the rounds are as in `s`. -/
structure SameImage (s s' : State α β) : Prop where
  entries : s'.entries = s.entries := by rfl
  numEntries : s'.numEntries = s.numEntries := by rfl
  tombstone : s'.tombstone = s.tombstone := by rfl
  freed : s'.freed = s.freed := by rfl
  ckFree : s'.ckFree = s.ckFree := by rfl
  nvmLastCkpt : s'.nvmLastCkpt = s.nvmLastCkpt := by rfl
  qpClks : s'.qpClks = s.qpClks := by rfl
  phase : s'.phase = s.phase := by rfl
  curAct : s'.curAct = s.curAct := by rfl
  masterWrt : s'.masterWrt = s.masterWrt := by rfl
  dropped : s'.dropped = s.dropped := by rfl
  ckOld : s'.ckOld = s.ckOld := by rfl
  ckNew : s'.ckNew = s.ckNew := by rfl

variable {R R' : ℕ → Prop}

/-- Transactions add versions, but do not touch what survives. -/
theorem Image.frame (h : Image B s R) (he : SameImage s s')
    (hfree : ∀ o, s.FreeCovered B o → s'.FreeCovered B o)
    (hrec : ∀ o, s'.freeClk o ≠ none → ∃ k < s'.numCopies, (s'.copies k).kind = .free ∧
      (s'.copies k).obj = o)
    (hhist : ∀ o, ∀ k ∈ s.hist o, s.status k = .detached → k ∈ s'.hist o ∧
      s'.status k = .detached ∧ (s'.copies k).wrtClk = (s.copies k).wrtClk)
    (hhist' : ∀ o, ∀ k ∈ s'.hist o, s'.status k = .detached → k ∈ s.hist o ∧
      s.status k = .detached) : Image B s' R := by
  obtain ⟨⟩ := s'
  obtain ⟨h1, h2, h3, h4, h5, h6, h7, h8, h9, h10, h11, h12, h13⟩ := he
  dsimp only at *
  subst h1 h2 h3 h4 h5 h6 h7 h8 h9 h10 h11 h12 h13
  refine { h with
    tomb := fun e he => hfree _ (h.tomb e he)
    freed := fun o ho => hfree o (h.freed o ho)
    record := hrec
    version := fun o k hk hd => ?_
    src := fun e he ht => ?_
    order := fun e₂ h2 e₁ h1 hobj ho => h.order e₂ h2 e₁ h1 hobj fun hf => ho (hfree _ hf)
    cur := fun e he ho => h.cur e he fun hf => ho (hfree _ hf)
    oldest := fun e hd ho => h.oldest e hd fun hf => ho (hfree _ hf)
    gone := fun e hd ho => h.gone e hd fun hf => ho (hfree _ hf)
    passed := fun t e he ho => h.passed t e he fun hf => ho (hfree _ hf) }
  · obtain ⟨hk', hd'⟩ := hhist' o k hk hd
    obtain ⟨e, he, h1, h2, h3⟩ := h.version o k hk' hd'
    exact ⟨e, he, h1, h2, h3.trans (hhist o k hk' hd').2.2.symm⟩
  · obtain ⟨k, hk, hd, hw⟩ := h.src e he ht
    obtain ⟨hk', hd', hw'⟩ := hhist _ k hk hd
    exact ⟨k, hk', hd', hw'.trans hw⟩

/-- More logs were reclaimed in this round. -/
theorem Image.mono (h : Image B s R) (hR : ∀ t, R t → R' t) : Image B s R' :=
  { h with
    passed := fun t e he ho => (h.passed t e he ho).imp_right
      fun ⟨e', h1, h2, h3, h4⟩ => ⟨e', h1, h2, h3, h4.imp_right (hR t)⟩ }

/-! ### Reclaiming the transient version logs -/

/-- An entry is enqueued: a tombstone of a covered free, or the newest version of an object
below the clock of a checkpoint round, which is detached. -/
theorem image_enq (h : Image B s R) (hl : CkptLogs s) {x : CkptEntry α} {f : ℕ → Status}
    (hkeep : ∀ o, ∀ k ∈ s.hist o, s.status k = .detached → f k = .detached)
    (hnew : ∀ o, ∀ k ∈ s.hist o, f k = .detached → s.status k = .detached ∨
      x.obj = o ∧ x.isTomb = false ∧ x.wrtClk = (s.copies k).wrtClk)
    (htomb : x.isTomb = true → s.FreeCovered B x.obj)
    (hsrc : x.isTomb = false → ∃ k ∈ s.hist x.obj, f k = .detached ∧
      (s.copies k).wrtClk = x.wrtClk)
    (hbelow : x.isTomb = false → ltClock B x.wrtClk x.ckptSClk)
    (hlate : x.isTomb = false → gteClock B x.wrtClk s.nvmLastCkpt ∧
      x.ckptSClk = s.qpClks.qp0 ∧ s.phase.Ckpting)
    (horder : ∀ e < s.numEntries, (s.entries e).obj = x.obj → ¬ s.FreeCovered B x.obj →
      (s.entries e).wrtClk < x.wrtClk) :
    Image B { s.ckptlogEnq t x with status := f } R := by
  have hold : ∀ e, e ≠ s.numEntries → (s.ckptlogEnq t x).entries e = s.entries e :=
    fun e he => Function.update_of_ne he _ _
  have hself : (s.ckptlogEnq t x).entries s.numEntries = x := Function.update_self _ _ _
  have hcases : ∀ {e}, e < s.numEntries + 1 → e < s.numEntries ∨ e = s.numEntries :=
    fun he => Nat.lt_succ_iff_lt_or_eq.mp he
  have hlog : ∀ t' e, e ∈ s.ckptlog t' → e ∈ (s.ckptlogEnq t x).ckptlog t' := by
    intro t' e he
    rw [ckptlog_enq]
    split
    · exact List.mem_append_left _ he
    · exact he
  refine ⟨fun e he => ?_, h.freed, h.record, fun o k hk hd => ?_, fun e he ht => ?_,
    fun e he ht => ?_, fun e he ht => ?_, fun e₂ he₂ e₁ he₁ hobj ho => ?_, fun e he ho => ?_,
    h.master, fun e he => ?_, fun e hd ho e' he' hobj => ?_, fun e hd ho => ?_,
    fun t' e he ho => ?_, h.qps⟩
  all_goals dsimp only at *
  · change Function.update s.tombstone s.numEntries x.isTomb e = true at he
    by_cases hne : e = s.numEntries
    · subst hne
      rw [Function.update_self] at he
      rw [hself]
      exact htomb he
    · rw [Function.update_of_ne hne] at he
      rw [hold e hne]
      exact h.tomb e he
  · rcases hnew o k hk hd with hd | ⟨h1, h2, h3⟩
    · obtain ⟨e, he, h1, h2, h3⟩ := h.version o k hk hd
      refine ⟨e, Nat.lt_succ_of_lt he, ?_⟩
      rw [hold e (by omega)]
      exact ⟨h1, h2, h3⟩
    · refine ⟨s.numEntries, Nat.lt_succ_self _, ?_⟩
      rw [hself]
      exact ⟨h1, h2, h3⟩
  · rcases hcases he with he | rfl
    · rw [hold e (by omega)] at ht ⊢
      obtain ⟨k, hk, hd, hw⟩ := h.src e he ht
      exact ⟨k, hk, hkeep _ k hk hd, hw⟩
    · rw [hself] at ht ⊢
      exact hsrc ht
  · rcases hcases he with he | rfl
    · rw [hold e (by omega)] at ht ⊢
      exact h.below e he ht
    · rw [hself] at ht ⊢
      exact hbelow ht
  · rcases hcases he with he | rfl
    · rw [hold e (by omega)] at ht ⊢
      exact h.late e he ht
    · rw [hself] at ht ⊢
      exact Or.inr (hlate ht)
  · rcases hcases he₂ with he₂ | rfl
    · rw [hold e₁ (by omega), hold e₂ (by omega)] at hobj
      rw [hold e₂ (by omega)] at ho
      rw [hold e₁ (by omega), hold e₂ (by omega)]
      exact h.order e₂ he₂ e₁ he₁ hobj ho
    · rw [hold e₁ (by omega), hself] at hobj
      rw [hself] at ho
      rw [hold e₁ (by omega), hself]
      exact horder e₁ he₁ hobj ho
  · show (∃ e', Function.update s.curAct x.obj (some s.numEntries) _ = some e' ∧ e ≤ e') ∨
      Function.update s.curAct x.obj (some s.numEntries) _ = none ∧ _
    -- the new entry becomes the current master
    by_cases heq : ((s.ckptlogEnq t x).entries e).obj = x.obj
    · rw [heq, Function.update_self]
      exact Or.inl ⟨s.numEntries, rfl, Nat.lt_succ_iff.mp he⟩
    · rw [Function.update_of_ne heq]
      rcases hcases he with he | rfl
      · rw [hold e (by omega)] at ho ⊢
        exact h.cur e he ho
      · exact absurd (congrArg CkptEntry.obj hself) heq
  · rcases hcases he with he | rfl
    · exact (h.placed e he).imp_right fun ⟨t', ht'⟩ => ⟨t', hlog t' e ht'⟩
    · refine Or.inr ⟨t, ?_⟩
      show s.numEntries ∈ (s.ckptlogEnq t x).ckptlog t
      rw [ckptlog_enq, if_pos rfl]
      exact List.mem_append_right _ (List.mem_singleton_self _)
  · have hlt := hl.dropped e hd
    rw [hold e (by omega)] at ho hobj
    rw [hold e' (by omega)] at hobj
    exact h.oldest e hd ho e' he' hobj
  · have hlt := hl.dropped e hd
    rw [hold e (by omega)] at ho ⊢
    refine (h.gone e hd ho).imp_right fun ⟨e', he', h1, h2, h3⟩ => ?_
    refine ⟨e', Nat.lt_succ_of_lt he', h1, ?_⟩
    rw [hold e' (by omega)]
    exact ⟨h2, h3⟩
  · have hlt := (hl.mem t' e (List.mem_append_left _ he)).1
    rw [hold e (by omega)] at ho ⊢
    refine (h.passed t' e he ho).imp_right fun ⟨e', he', h1, h2, h3⟩ => ?_
    refine ⟨e', Nat.lt_succ_of_lt he', h1, ?_⟩
    rw [hold e' (by omega)]
    exact ⟨h2, h3⟩

/-- The free record of a freed object says when it was freed. -/
theorem Core.freeCovered (h : Core B s t W c) (hk : k < s.numCopies)
    (hkind : (s.copies k).kind = .free) (hlt : ltClock B (s.copies k).wrtClk s.nvmLastCkpt) :
    s.FreeCovered B (s.copies k).obj := by
  rw [State.FreeCovered, (h.locks.freed k hk hkind).2.1]
  exact hlt

theorem image_markTombstone (h : Image B s R) (hl : CkptLogs s) (hc : Core B s t W []) {t' : ℕ}
    {w : WrtSet} (hw : w ∈ s.tvOld t') (hk : k ∈ w.copies) (hkind : (s.copies k).kind = .free)
    (hcov : s.FreesCovered B t') : Image B (s.markTombstone t' w.wrtClk k) R := by
  obtain ⟨hlt, hwrt, -, -⟩ := hc.member (List.mem_append_left _ hw) hk
  have hstatus := hc.status_of_free hkind .tombstoneMarked
  unfold State.markTombstone
  dsimp only
  split
  · exact h
  rename_i hst
  have hfree := hc.freeCovered hlt hkind (hcov w hw k hk hkind hst)
  split
  · have henq : Image B { s.ckptlogEnq t' ⟨(s.copies k).obj, w.wrtClk, (s.clks t').qp0, true, none⟩
        with status := Function.update s.status k .tombstoneMarked } R := by
      refine image_enq h hl (fun o j hj hd => (hstatus o j hj).trans hd)
        (fun o j hj hd => Or.inl ((hstatus o j hj).symm.trans hd)) (fun _ => hfree) nofun nofun
        nofun fun e _ _ ho => absurd hfree ho
    exact { henq with }
  · rename_i e₀ hcur
    have hobj := (hc.versions.entry _ e₀ hcur).2
    have hmark : Image B { s with tombstone := Function.update s.tombstone e₀ true } R := by
      refine { h with tomb := fun e he => ?_ }
      change Function.update s.tombstone e₀ true e = true at he
      by_cases heq : e = e₀
      · show s.FreeCovered B (s.entries e).obj
        rw [heq, hobj]
        exact hfree
      · rw [Function.update_of_ne heq] at he
        exact h.tomb e he
    refine hmark.frame {} (fun _ => id) h.record (fun o j hj hd => ⟨hj, ?_, rfl⟩)
      fun o j hj hd => ⟨hj, ?_⟩
    · exact (hstatus o j hj).trans hd
    · exact (hstatus o j hj).symm.trans hd

/-- What a checkpoint round checkpoints is beyond the last checkpoint. -/
theorem Cover.gte_of_needsCkpt (h : Cover B s) (hc : Core B s t W []) {t' : ℕ} {w : WrtSet}
    (hs : s.Synced t') (hw : w ∈ s.tvNew t') (hk : k ∈ w.copies)
    (hlt : ltClock B w.wrtClk (s.clks t').qp0) (hn : s.NeedsCkpt B t' k) :
    gteClock B (s.copies k).wrtClk s.nvmLastCkpt := by
  obtain ⟨hhist, -, -, -⟩ := hc.needsCkpt hs hw hk hlt hn
  intro hold
  rw [hc.clocks.nvm] at hold
  have hprev := h.covered _ k hhist hn.2.1 hold
  have hle := hc.clocks.ckpt
  have hmax := hc.clocks.max
  have hq := hc.clocks.qp0
  obtain ⟨-, -, hb⟩ := hn
  unfold State.IsAtBorderline at hb
  rw [hs.1] at hb
  rw [ltClock_iff] at hprev
  split at hb
  · omega
  · have hge := hb.1
    rw [gteClock_iff] at hge
    omega

theorem image_checkpoint (h : Image B s R) (hl : CkptLogs s) (hc : Core B s t W [])
    (hcont : Contents org s) (hcov : Cover B s) {t' : ℕ} {w : WrtSet} (hs : s.Synced t')
    (hw : w ∈ s.tvNew t') (hk : k ∈ w.copies) (hlt : ltClock B w.wrtClk (s.clks t').qp0)
    (hn : s.NeedsCkpt B t' k) (hp : s.phase.Ckpting) :
    Image B (s.checkpoint t' w.wrtClk k) R := by
  obtain ⟨hhist, hwrt, hlt', hnew⟩ := hc.needsCkpt hs hw hk hlt hn
  have hge := hcov.gte_of_needsCkpt hc hs hw hk hlt hn
  have henq : Image B { s.ckptlogEnq t'
      ⟨(s.copies k).obj, w.wrtClk, (s.clks t').qp0, false, (s.copies k).content⟩
      with status := Function.update s.status k .detached } R := by
    refine image_enq h hl (fun o j _ hd => ?_) (fun o j hj hd => ?_) nofun
      (fun _ => ⟨k, hhist, Function.update_self _ _ _, hwrt⟩) (fun _ => hlt)
      (fun _ => ⟨hwrt ▸ hge, hs.1, hp⟩) fun e he hobj ho => ?_
    · by_cases heq : j = k
      · rw [heq, Function.update_self]
      · rw [Function.update_of_ne heq]
        exact hd
    · by_cases heq : j = k
      · subst heq
        exact Or.inr ⟨hc.chains.obj_inj hhist hj, rfl, hwrt.symm⟩
      · rw [Function.update_of_ne heq] at hd
        exact Or.inl hd
    · -- the older entries hold versions that are detached, so none is this one
      dsimp only at hobj ho ⊢
      rw [← hobj] at ho
      obtain ⟨j, hj, hd, hjw⟩ := h.src e he (h.isTomb_eq_false hcont he ho)
      rw [hobj] at hj
      have hle := hnew j hj (hc.versions.detached _ j hj hd).1
      rw [← hjw, ← hwrt]
      refine lt_of_le_of_ne hle fun heq => ?_
      rw [hc.chains.eq_of_wrtClk hj hhist heq] at hd
      exact hn.2.1 hd
  exact { henq with }

/-- The masters, the versions and the logs. -/
structure Kept (org : ℕ → α) (B : ℕ) (s : State α β) (R : ℕ → Prop) : Prop where
  core : Core B s 0 0 []
  contents : Contents org s
  cover : Cover B s
  logs : CkptLogs s
  image : Image B s R

theorem freesCovered_markTombstone (h : s.FreesCovered B t) (w k : ℕ) :
    (s.markTombstone t w k).FreesCovered B t := by
  unfold State.markTombstone
  dsimp only
  split
  · exact h
  split
  · exact fun w hw j hj hkind hst => h w hw j hj hkind (mt (marked_update k) hst)
  · exact fun w hw j hj hkind hst => h w hw j hj hkind (mt (marked_update k) hst)

theorem nothingDue_markTombstone (h : s.NothingDue B t) (hkind : (s.copies k).kind = .free)
    (w : ℕ) : (s.markTombstone t w k).NothingDue B t := by
  unfold State.markTombstone
  dsimp only
  split
  · exact h
  -- a free record is never checkpointed
  have hdue : ∀ j, (s.copies j).kind ≠ .free →
      Function.update s.status k .tombstoneMarked j ≠ .detached → s.status j ≠ .detached := by
    intro j hj hd
    have hne : j ≠ k := by
      rintro rfl
      exact hj hkind
    rw [Function.update_of_ne hne] at hd
    exact hd
  split
  · exact fun w hw hlt j hj hn => h w hw hlt j hj ⟨hn.1, hdue j hn.1 hn.2.1, hn.2.2⟩
  · exact fun w hw hlt j hj hn => h w hw hlt j hj ⟨hn.1, hdue j hn.1 hn.2.1, hn.2.2⟩

/-- `tvlog_reclaim` keeps the image, if a round that checkpoints publishes. -/
theorem kept_tvlogReclaim (h : Kept org B s R) (hs : s.Synced t) (ht : t ∈ s.tids)
    (hf : (s.req t).tvlog ≠ .none → s.FreesCovered B t)
    (hp : (s.req t).tvlog = .ckpt → s.phase.Ckpting ∨ s.NothingDue B t) :
    Kept org B (s.tvlogReclaim B t) R := by
  by_cases hreq : (s.req t).tvlog = .none
  · rw [State.tvlogReclaim, hreq]
    exact h
  have hsets : ∀ {s₁ : State α β} {tvOld tvNew : ℕ → List WrtSet} {reclaimed : ℕ → Bool},
      s₁.NothingDue B t → (∀ w ∈ tvOld t ++ tvNew t, w ∈ s₁.tvOld t ++ s₁.tvNew t) →
      State.NothingDue { s₁ with tvOld := tvOld, tvNew := tvNew, reclaimed := reclaimed } B t :=
    fun hd hsub w hw hlt j hj => hd w (hsub w hw) hlt j hj
  refine tvlogReclaim_phases
    (P := fun s₁ => Kept org B s₁ R ∧ Quiet s s₁ ∧ s₁.FreesCovered B t ∧
      ((s.req t).tvlog = .ckpt → s.phase.Ckpting ∨ s₁.NothingDue B t))
    (Q := fun s₁ => Kept org B s₁ R ∧ Quiet s s₁ ∧
      ((s.req t).tvlog = .ckpt → s.phase.Ckpting ∨ s₁.NothingDue B t))
    (R := fun s₁ => Kept org B s₁ R)
    ?_ ?_ ?_ ?_ ?_ ?_ (fun _ => h) ⟨h, Quiet.refl s, hf hreq, hp⟩
  · rintro s₁ w rest k ⟨h₁, hq, hf₁, hp₁⟩ hw hk hkind
    have hw' : w ∈ s₁.tvOld t := by rw [hw]; exact List.mem_cons_self
    refine ⟨⟨core_markTombstone h₁.core hw' hk hkind, contents_markTombstone h₁.contents t _ k,
      cover_markTombstone h₁.cover h₁.core hkind,
      ckptLogs_markTombstone h₁.logs (hq.synced hs) (hq.tids ▸ ht) _ _,
      image_markTombstone h₁.image h₁.logs h₁.core hw' hk hkind hf₁⟩,
      quiet_markTombstone hq _ _, freesCovered_markTombstone hf₁ _ _, fun hm => ?_⟩
    exact (hp₁ hm).imp_right fun hd => nothingDue_markTombstone hd hkind _
  · rintro s₁ w rest ⟨h₁, hq, hf₁, hp₁⟩ hw
    have hsub : ∀ w₁ ∈ Function.update s₁.tvOld t rest t, w₁ ∈ s₁.tvOld t := by
      intro w₁ hw₁
      rw [Function.update_self] at hw₁
      rw [hw]
      exact List.mem_cons_of_mem _ hw₁
    refine ⟨⟨core_dropSet h₁.core hw, { h₁.contents with }, { h₁.cover with }, { h₁.logs with },
      { h₁.image with }⟩, { hq with }, fun w₁ hw₁ => hf₁ w₁ (hsub w₁ hw₁), fun hm => ?_⟩
    refine (hp₁ hm).imp_right fun hd => hsets hd fun w₁ hw₁ => ?_
    rcases List.mem_append.mp hw₁ with hw₁ | hw₁
    · exact List.mem_append_left _ (hsub w₁ hw₁)
    · exact List.mem_append_right _ hw₁
  · rintro s₁ ⟨h₁, hq, -, hp₁⟩
    refine ⟨⟨core_rewind h₁.core t, { h₁.contents with }, cover_rewind h₁.cover t,
      { h₁.logs with }, { h₁.image with }⟩, { hq with }, fun hm => ?_⟩
    refine (hp₁ hm).imp_right fun hd => hsets hd fun w₁ hw₁ => ?_
    rw [Function.update_self, Function.update_self] at hw₁
    exact hw₁
  · rintro s₁ w rest k hm ⟨h₁, hq, hp₁⟩ hw hk hlt hn
    have hw' : w ∈ s₁.tvNew t := by rw [hw]; exact List.mem_cons_self
    have hs₁ := hq.synced hs
    have hck : s.phase.Ckpting := by
      refine (hp₁ hm).resolve_right fun hd => ?_
      exact hd w (List.mem_append_right _ hw') hlt k hk hn
    refine ⟨⟨core_checkpoint h₁.core hs₁ hw' hk hlt hn,
      contents_checkpoint h₁.contents h₁.core hs₁ hw' hk hlt hn, cover_checkpoint h₁.cover,
      ckptLogs_checkpoint h₁.logs hs₁ (hq.tids ▸ ht) _ _,
      image_checkpoint h₁.image h₁.logs h₁.core h₁.contents h₁.cover hs₁ hw' hk hlt hn
        (hq.phase ▸ hck)⟩, { hq with }, fun _ => Or.inl hck⟩
  · rintro s₁ w rest ⟨h₁, hq, hp₁⟩ hw hlt hn
    refine ⟨⟨core_passSet h₁.core hw, { h₁.contents with },
      cover_passSet h₁.cover h₁.core (hq.synced hs) hw hlt hn, { h₁.logs with },
      { h₁.image with }⟩, { hq with }, fun hm => ?_⟩
    refine (hp₁ hm).imp_right fun hd => hsets hd fun w₁ hw₁ => ?_
    rw [Function.update_self, Function.update_self, List.append_assoc, List.singleton_append,
      ← hw] at hw₁
    exact hw₁
  · rintro s₁ ⟨h₁, -⟩ -
    exact ⟨h₁.core.congr {} fun _ => id, { h₁.contents with }, { h₁.cover with },
      { h₁.logs with }, { h₁.image with }⟩

/-! ### Reclaiming the checkpoint logs -/

/-- The head of a log passes an entry, and no other log holds an older one of its object. -/
theorem image_dropEntry (h : Image B s R) (hl : CkptLogs s) (hR : ¬ R t) (ho : s.OldestFirst B t)
    {e : ℕ} {rest : List ℕ} (he : s.ckOld t = e :: rest) : Image B (s.dropEntry t e rest) R := by
  have hlog := ckptlog_dropEntry he
  have hmem : e ∈ s.ckOld t := by rw [he]; exact List.mem_cons_self
  have hdrop : ∀ {e₁}, (s.dropEntry t e rest).dropped e₁ = true → s.dropped e₁ = true ∨ e₁ = e := by
    intro e₁ hd
    change Function.update s.dropped e true e₁ = true at hd
    by_cases heq : e₁ = e
    · exact Or.inr heq
    · rw [Function.update_of_ne heq] at hd
      exact Or.inl hd
  have hkeep : ∀ {e₁}, s.dropped e₁ = true → (s.dropEntry t e rest).dropped e₁ = true := by
    intro e₁ hd
    show Function.update s.dropped e true e₁ = true
    by_cases heq : e₁ = e
    · rw [heq, Function.update_self]
    · rw [Function.update_of_ne heq]
      exact hd
  refine { h with
    freed := fun o hfree => ?_
    placed := fun e₁ he₁ => ?_
    oldest := fun e₁ hd hf e' he' hobj => ?_
    gone := fun e₁ hd hf => ?_
    passed := fun t' e₁ he₁ hf => ?_ }
  · -- the object of a tombstone goes to the free set
    rcases hfree with hfree | ⟨t', hfree⟩
    · exact h.freed o (Or.inl hfree)
    · change o ∈ (if s.tombstone e = true then Function.update s.ckFree t
        (s.ckFree t ++ [(s.entries e).obj]) else s.ckFree) t' at hfree
      split at hfree
      · rename_i htomb
        by_cases heq : t' = t
        · rw [heq, Function.update_self, List.mem_append, List.mem_singleton] at hfree
          rcases hfree with hfree | rfl
          · exact h.freed o (Or.inr ⟨t, hfree⟩)
          · exact h.tomb e htomb
        · rw [Function.update_of_ne heq] at hfree
          exact h.freed o (Or.inr ⟨t', hfree⟩)
      · exact h.freed o (Or.inr ⟨t', hfree⟩)
  · rcases h.placed e₁ he₁ with hd | ⟨t', ht'⟩
    · exact Or.inl (hkeep hd)
    · rw [hlog t'] at ht'
      split at ht'
      · rcases List.mem_cons.mp ht' with rfl | ht'
        · exact Or.inl (Function.update_self _ _ _)
        · exact Or.inr ⟨t', ht'⟩
      · exact Or.inr ⟨t', ht'⟩
  · rcases hdrop hd with hd | rfl
    · exact hkeep (h.oldest e₁ hd hf e' he' hobj)
    · -- an older entry is in no log
      have hlt := (hl.mem t e₁ (List.mem_append_left _ hmem)).1
      rcases h.placed e' (lt_trans he' hlt) with hd' | ⟨t', ht'⟩
      · exact hkeep hd'
      · by_cases heq : t' = t
        · subst heq
          have hsorted := hl.sorted t'
          rw [hlog t', if_pos rfl] at hsorted ht'
          rcases List.mem_cons.mp ht' with rfl | ht'
          · exact absurd he' (lt_irrefl _)
          · have := (List.pairwise_cons.mp hsorted).1 e' ht'
            omega
        · have := ho e₁ hmem hf t' (hl.mem t' e' ht').2.2 heq e' ht' hobj
          omega
  · rcases hdrop hd with hd | rfl
    · exact h.gone e₁ hd hf
    · refine (h.passed t e₁ hmem hf).imp_right fun ⟨e', h1, h2, h3, h4⟩ => ?_
      exact ⟨e', h1, h2, h3, h4.resolve_right hR⟩
  · refine h.passed t' e₁ ?_ hf
    change e₁ ∈ Function.update s.ckOld t rest t' at he₁
    by_cases heq : t' = t
    · rw [heq, Function.update_self] at he₁
      rw [heq, he]
      exact List.mem_cons_of_mem _ he₁
    · rw [Function.update_of_ne heq] at he₁
      exact he₁

/-- The entries of an object are not newer than its current master. -/
theorem Image.le_of_cur (h : Image B s R) {e e' : ℕ} (he : s.curAct (s.entries e).obj = some e)
    (hlt : e < s.numEntries) (hlt' : e' < s.numEntries) (hobj : (s.entries e').obj = (s.entries e).obj)
    (ho : ¬ s.FreeCovered B (s.entries e).obj) : (s.entries e').wrtClk ≤ (s.entries e).wrtClk := by
  rcases h.cur e' hlt' (by rw [hobj]; exact ho) with ⟨i, hi, hle⟩ | ⟨hi, -⟩
  · rw [hobj, he, Option.some_inj] at hi
    subst hi
    rcases Nat.lt_or_eq_of_le hle with hlt'' | rfl
    · exact le_of_lt (h.order e hlt e' hlt'' hobj ho)
    · exact le_refl _
  · rw [hobj, he] at hi
    contradiction

/-- What is written back in a round was checkpointed in an earlier one. -/
theorem Image.written_covered (h : Image B s R) (hp : ¬ s.phase.Between) {e : ℕ}
    (hlt : e < s.numEntries) (ht : (s.entries e).isTomb = false)
    (hgt : ¬ gtClock B (s.entries e).ckptSClk s.qpClks.qp2) :
    ltClock B (s.entries e).wrtClk s.nvmLastCkpt := by
  have hbelow := h.below e hlt ht
  obtain ⟨h1, -, h2⟩ := h.qps
  rw [gtClock_iff] at hgt
  rw [ltClock_iff] at *
  rcases h.late e hlt ht with hle | ⟨-, heq, -⟩
  · omega
  · rcases h2 with h2 | h2
    · exact absurd h2 hp
    · omega

theorem image_writeback (h : Image B s R) (hl : CkptLogs s) (hcont : Contents org s)
    (hp : ¬ s.phase.Between) {e : ℕ} (hlt : e < s.numEntries)
    (hgt : ¬ gtClock B (s.entries e).ckptSClk s.qpClks.qp2)
    (he : s.curAct (s.entries e).obj = some e) (ht : s.tombstone e = false) :
    Image B (s.writeback e) R := by
  have htomb : (s.entries e).isTomb = false := by
    by_contra hn
    rw [hcont.tomb e hlt (by simpa using hn)] at ht
    contradiction
  -- the original master gets the newest of the entries
  have hwrt : ∀ {e₁} {p : Prop}, e₁ < s.numEntries → ¬ s.FreeCovered B (s.entries e₁).obj →
      ((s.entries e₁).wrtClk ≤ s.masterWrt (s.entries e₁).obj ∨ p) →
      ((s.entries e₁).wrtClk ≤ (s.writeback e).masterWrt (s.entries e₁).obj ∨ p) := by
    intro e₁ p hlt₁ ho hle
    show (s.entries e₁).wrtClk ≤ Function.update s.masterWrt (s.entries e).obj _ _ ∨ p
    by_cases heq : (s.entries e₁).obj = (s.entries e).obj
    · rw [heq, Function.update_self]
      rw [heq] at ho
      exact Or.inl (h.le_of_cur he hlt hlt₁ heq ho)
    · rw [Function.update_of_ne heq]
      exact hle
  refine { h with
    cur := fun e₁ he₁ ho => ?_
    master := fun o => ?_
    gone := fun e₁ hd ho => hwrt (hl.dropped e₁ hd) ho (h.gone e₁ hd ho)
    passed := fun t' e₁ he₁ ho =>
      hwrt (hl.mem t' e₁ (List.mem_append_left _ he₁)).1 ho (h.passed t' e₁ he₁ ho) }
  · show (∃ e', Function.update s.curAct (s.entries e).obj none (s.entries e₁).obj = some e' ∧
        e₁ ≤ e') ∨ Function.update s.curAct (s.entries e).obj none (s.entries e₁).obj = none ∧
      (s.entries e₁).wrtClk ≤ Function.update s.masterWrt (s.entries e).obj _ (s.entries e₁).obj
    by_cases heq : (s.entries e₁).obj = (s.entries e).obj
    · change ¬ s.FreeCovered B (s.entries e₁).obj at ho
      rw [heq] at ho
      rw [heq, Function.update_self, Function.update_self]
      exact Or.inr ⟨rfl, h.le_of_cur he hlt he₁ heq ho⟩
    · rw [Function.update_of_ne heq, Function.update_of_ne heq]
      exact h.cur e₁ he₁ ho
  · show Function.update s.masterWrt (s.entries e).obj _ o = 0 ∨
      ltClock B (Function.update s.masterWrt (s.entries e).obj _ o) s.nvmLastCkpt
    by_cases heq : o = (s.entries e).obj
    · rw [heq, Function.update_self]
      exact Or.inr (h.written_covered hp hlt htomb hgt)
    · rw [Function.update_of_ne heq]
      exact h.master o

theorem image_passEntry (h : Image B s R) {e : ℕ} {rest : List ℕ} (he : s.ckNew t = e :: rest)
    (hnew : ¬ s.FreeCovered B (s.entries e).obj →
      (s.entries e).wrtClk ≤ s.masterWrt (s.entries e).obj ∨
        ∃ e' < s.numEntries, e < e' ∧ (s.entries e').obj = (s.entries e).obj ∧
          ((s.entries e').ckptSClk ≤ s.nvmLastCkpt ∨ R t)) : Image B (s.passEntry t e rest) R := by
  refine { h with placed := fun e₁ he₁ => ?_, passed := fun t' e₁ he₁ ho => ?_ }
  · refine (h.placed e₁ he₁).imp_right fun ⟨t', ht'⟩ => ⟨t', ?_⟩
    rw [ckptlog_passEntry he]
    exact ht'
  · change e₁ ∈ Function.update s.ckOld t (s.ckOld t ++ [e]) t' at he₁
    by_cases heq : t' = t
    · subst heq
      rw [Function.update_self, List.mem_append, List.mem_singleton] at he₁
      rcases he₁ with he₁ | rfl
      · exact h.passed t' e₁ he₁ ho
      · exact hnew ho
    · rw [Function.update_of_ne heq] at he₁
      exact h.passed t' e₁ he₁ ho

/-- Other logs may not hold older entries until the first loop is through. -/
theorem oldestFirst_dropEntry (h : s.OldestFirst B t) {e : ℕ} {rest : List ℕ}
    (he : s.ckOld t = e :: rest) : (s.dropEntry t e rest).OldestFirst B t := by
  intro e₁ he₁ ho t' ht' hne e' he' hobj
  refine h e₁ ?_ ho t' ht' hne e' ?_ hobj
  · change e₁ ∈ Function.update s.ckOld t rest t at he₁
    rw [Function.update_self] at he₁
    rw [he]
    exact List.mem_cons_of_mem _ he₁
  · rw [ckptlog_dropEntry he, if_neg hne]
    exact he'

theorem noteMinCkpt_kept (h : Kept org B s R) (t : ℕ) : Kept org B (s.noteMinCkpt t) R := by
  unfold State.noteMinCkpt
  split
  · exact h
  · exact ⟨h.core.congr {} fun _ => id, { h.contents with }, { h.cover with }, { h.logs with },
      { h.image with }⟩

/-- `ckptlog_reclaim_x` for a thread that has not reclaimed its checkpoint log in this
round. -/
theorem kept_ckptlogReclaimX (h : Kept org B s R) (hR : ¬ R t) (hs : s.Synced t)
    (hp : ¬ s.phase.Between) (ho : s.OldestFirst B t) {budget : Option ℕ} :
    Kept org B (s.ckptlogReclaimX B t budget) fun t' => t' = t ∨ R t' := by
  refine ckptlogReclaimX_phases
    (P := fun s₁ => Kept org B s₁ R ∧ Quiet s s₁ ∧ s₁.OldestFirst B t)
    (Q := fun s₁ => Kept org B s₁ (fun t' => t' = t ∨ R t') ∧ Quiet s s₁)
    (R := fun s₁ => Kept org B s₁ fun t' => t' = t ∨ R t') ?_ ?_ ?_ ?_ ?_ ⟨h, Quiet.refl s, ho⟩
  · rintro s₁ e rest ⟨h₁, hq, ho₁⟩ he
    exact ⟨⟨h₁.core.congr {} fun _ => id, { h₁.contents with }, { h₁.cover with },
      ckptLogs_dropEntry h₁.logs he, image_dropEntry h₁.image h₁.logs hR ho₁ he⟩, { hq with },
      oldestFirst_dropEntry ho₁ he⟩
  · rintro s₁ ⟨h₁, hq, -⟩ -
    have h₂ := noteMinCkpt_kept h₁ t
    exact ⟨{ h₂ with image := h₂.image.mono fun _ => Or.inr }, quiet_noteMinCkpt hq⟩
  · rintro s₁ e rest ⟨h₁, hq⟩ he hgt hcur ht
    have hmem : e ∈ s₁.ckptlog t := List.mem_append_right _ (by rw [he]; exact List.mem_cons_self)
    rw [(hq.synced hs).2.1] at hgt
    have hwb := image_writeback h₁.image h₁.logs h₁.contents (hq.phase ▸ hp)
      (h₁.logs.mem t e hmem).1 hgt hcur ht
    refine ⟨⟨(core_writeback h₁.core hcur).congr {} fun _ => id,
      { contents_writeback h₁.contents h₁.core hcur ht with }, { h₁.cover with },
      ckptLogs_passEntry (s := s₁.writeback e) { h₁.logs with } he,
      image_passEntry hwb he fun _ => Or.inl ?_⟩, { hq with }⟩
    show (s₁.entries e).wrtClk ≤ Function.update s₁.masterWrt (s₁.entries e).obj _ (s₁.entries e).obj
    rw [Function.update_self]
  · rintro s₁ e rest ⟨h₁, hq⟩ he hgt hcur
    have hmem : e ∈ s₁.ckptlog t := List.mem_append_right _ (by rw [he]; exact List.mem_cons_self)
    have hlt := (h₁.logs.mem t e hmem).1
    refine ⟨⟨h₁.core.congr {} fun _ => id, { h₁.contents with }, { h₁.cover with },
      ckptLogs_passEntry h₁.logs he, image_passEntry h₁.image he fun hf => ?_⟩, { hq with }⟩
    -- a newer entry is current, or was written back
    have hcur' : s₁.curAct (s₁.entries e).obj ≠ some e := by
      intro hc
      refine hcur ⟨hc, ?_⟩
      by_contra ht
      exact hf (h₁.image.tomb e (by simpa using ht))
    rcases h₁.image.cur e hlt hf with ⟨e', he', hle⟩ | ⟨-, hle⟩
    · obtain ⟨hlt', hobj'⟩ := h₁.core.versions.entry _ e' he'
      have hne : e ≠ e' := by
        rintro rfl
        exact hcur' he'
      exact Or.inr ⟨e', hlt', by omega, hobj', Or.inr (Or.inl rfl)⟩
    · exact Or.inl hle
  · rintro s₁ ⟨h₁, -⟩
    exact ⟨h₁.core.congr {} fun _ => id, { h₁.contents with }, { h₁.cover with },
      { h₁.logs with }, { h₁.image with }⟩

/-- What `tvlog_reclaim` leaves alone of the checkpoint logs. -/
theorem tvlogReclaim_logs (s : State α β) (B t : ℕ) :
    (s.tvlogReclaim B t).ckRound = s.ckRound ∧ (s.tvlogReclaim B t).ckOld = s.ckOld ∧
      (∀ t' ≠ t, (s.tvlogReclaim B t).ckNew t' = s.ckNew t') ∧
      s.numEntries ≤ (s.tvlogReclaim B t).numEntries ∧
      ∀ e < s.numEntries, (s.tvlogReclaim B t).entries e = s.entries e := by
  have henq : ∀ {s₁ : State α β} {x : CkptEntry α},
      (s₁.ckRound = s.ckRound ∧ s₁.ckOld = s.ckOld ∧ (∀ t' ≠ t, s₁.ckNew t' = s.ckNew t') ∧
        s.numEntries ≤ s₁.numEntries ∧ ∀ e < s.numEntries, s₁.entries e = s.entries e) →
      (∀ t' ≠ t, (s₁.ckptlogEnq t x).ckNew t' = s.ckNew t') ∧
        s.numEntries ≤ (s₁.ckptlogEnq t x).numEntries ∧
        ∀ e < s.numEntries, (s₁.ckptlogEnq t x).entries e = s.entries e := by
    rintro s₁ x ⟨-, -, h3, h4, h5⟩
    refine ⟨fun t' hne => ?_, Nat.le_succ_of_le h4, fun e he => ?_⟩
    · exact (Function.update_of_ne hne _ _).trans (h3 t' hne)
    · exact (Function.update_of_ne (by omega) _ _).trans (h5 e he)
  refine tvlogReclaim_rule (P := fun s₁ => s₁.ckRound = s.ckRound ∧ s₁.ckOld = s.ckOld ∧
    (∀ t' ≠ t, s₁.ckNew t' = s.ckNew t') ∧ s.numEntries ≤ s₁.numEntries ∧
    ∀ e < s.numEntries, s₁.entries e = s.entries e) ?_ ?_ ?_ ?_ ?_ ?_
    ⟨rfl, rfl, fun _ _ => rfl, le_refl _, fun _ _ => rfl⟩
  · intro s₁ w rest k h₁ _ _ _
    unfold State.markTombstone
    dsimp only
    split
    · exact h₁
    split
    · exact ⟨h₁.1, h₁.2.1, henq h₁⟩
    · exact h₁
  · exact fun _ _ _ h₁ _ => h₁
  · exact fun _ h₁ => h₁
  · exact fun _ _ _ _ h₁ _ _ _ _ => ⟨h₁.1, h₁.2.1, henq h₁⟩
  · exact fun _ _ _ h₁ _ _ _ => h₁
  · exact fun _ h₁ _ => h₁

theorem oldestFirst_tvlogReclaim (h : s.OldestFirst B t) (hl : CkptLogs s) :
    (s.tvlogReclaim B t).OldestFirst B t := by
  have hq := quiet_tvlogReclaim (B := B) s t
  obtain ⟨-, hold, hnew, -, hentries⟩ := tvlogReclaim_logs s B t
  intro e he ho t' ht' hne e' he' hobj
  rw [hold] at he
  have hlog : (s.tvlogReclaim B t).ckptlog t' = s.ckptlog t' := by
    rw [State.ckptlog, hold, hnew t' hne, State.ckptlog]
  rw [hlog] at he'
  rw [hentries e (hl.mem t e (List.mem_append_left _ he)).1] at ho hobj
  rw [hentries e' (hl.mem t' e' he').1] at hobj
  rw [hq.tids] at ht'
  refine h e he (fun hf => ho ?_) t' ht' hne e' he' hobj
  rw [State.FreeCovered, hq.freeClk, hq.nvmLastCkpt]
  exact hf

/-- In which round the checkpoint log of `t` was reclaimed last. -/
theorem ckRound_ckptlogReclaimX (s : State α β) (B t : ℕ) (budget : Option ℕ) :
    (s.ckptlogReclaimX B t budget).ckRound = Function.update s.ckRound t s.round := by
  refine ckptlogReclaimX_phases (P := fun s₁ => s₁.ckRound = s.ckRound ∧ s₁.round = s.round)
    (Q := fun s₁ => s₁.ckRound = s.ckRound ∧ s₁.round = s.round)
    (R := fun s₁ => s₁.ckRound = Function.update s.ckRound t s.round) ?_ ?_ ?_ ?_ ?_ ⟨rfl, rfl⟩
  · exact fun _ _ _ h₁ _ => h₁
  · intro s₁ h₁ _
    unfold State.noteMinCkpt
    split
    · exact h₁
    · exact h₁
  · exact fun _ _ _ h₁ _ _ _ _ => h₁
  · exact fun _ _ _ h₁ _ _ _ => h₁
  · intro s₁ h₁
    show Function.update s₁.ckRound t s₁.round = _
    rw [h₁.1, h₁.2]

/-- The logs that were reclaimed in this round. -/
def State.InRound (s : State α β) (t : ℕ) : Prop := s.ckRound t = s.round

/-- `ckptlog_reclaim` keeps the image where the log is reclaimed once in the round. -/
theorem kept_ckptlogReclaim (h : Kept org B s s.InRound) {wb : ℕ}
    (hreq : (s.req t).ckptlog ≠ .none → ¬ s.InRound t ∧ s.Synced t ∧ ¬ s.phase.Between ∧
      s.OldestFirst B t) :
    Kept org B (s.ckptlogReclaim B t wb) (s.ckptlogReclaim B t wb).InRound := by
  have hx : (s.req t).ckptlog ≠ .none → ∀ budget,
      Kept org B (s.ckptlogReclaimX B t budget) (s.ckptlogReclaimX B t budget).InRound := by
    intro hr budget
    obtain ⟨h1, h2, h3, h4⟩ := hreq hr
    have h' : Kept org B (s.ckptlogReclaimX B t budget) fun t' => t' = t ∨ s.InRound t' :=
      kept_ckptlogReclaimX h h1 h2 h3 h4
    refine { h' with image := h'.image.mono fun t' ht' => ?_ }
    have hround : (s.ckptlogReclaimX B t budget).round = s.round :=
      ckptlogReclaimX_rule (P := fun s₁ => s₁.round = s.round) (fun _ _ _ h₁ _ => h₁)
        (fun s₁ h₁ _ => (quiet_noteMinCkpt (Quiet.refl s₁)).round.trans h₁)
        (fun _ _ _ h₁ _ _ _ _ => h₁) (fun _ _ _ h₁ _ _ _ => h₁) (fun _ h₁ => h₁) rfl
    rw [State.InRound, hround, ckRound_ckptlogReclaimX]
    by_cases heq : t' = t
    · rw [heq, Function.update_self]
    · rw [Function.update_of_ne heq]
      exact ht'.resolve_left heq
  unfold State.ckptlogReclaim
  split
  · exact h
  · rename_i hr
    exact hx (by rw [hr]; simp) _
  · rename_i hr
    exact hx (by rw [hr]; simp) _
  · rename_i hr
    exact hx (by rw [hr]; simp) _

theorem Kept.congr (h : Kept org B s R) (hc : SameCore s s') (hi : SameImage s s')
    (hw : ∀ clk, s'.phase = .waiting clk → s.phase = .waiting clk)
    (hcont : Contents org s → Contents org s') (hcov : Cover B s → Cover B s')
    (hl : CkptLogs s → CkptLogs s') : Kept org B s' R := by
  refine ⟨h.core.congr hc hw, hcont h.contents, hcov h.cover, hl h.logs, h.image.frame hi ?_ ?_ ?_ ?_⟩
  · intro o ho
    rw [State.FreeCovered, hc.freeClk, hc.nvmLastCkpt]
    exact ho
  · rw [hc.freeClk, hc.numCopies, hc.copies]
    exact h.image.record
  · intro o k hk hd
    rw [hc.hist, hc.status, hc.copies]
    exact ⟨hk, hd, rfl⟩
  · intro o k hk hd
    rw [hc.hist] at hk
    rw [hc.status] at hd
    exact ⟨hk, hd⟩

/-- The logs of a zombie are reclaimed once in the round. -/
theorem kept_reapLogs (h : Kept org B s s.InRound) (ht : t ∈ s.tids)
    (hp : s.phase.Ckpting ∨ (s.syncClks t).NothingDue B t) (hf : s.FreesCovered B t)
    (ho : s.OldestFirst B t) (hR : ¬ s.InRound t) (hb : ¬ s.phase.Between) :
    Kept org B (s.reapLogs B t) (s.reapLogs B t).InRound := by
  refine reapLogs_phases
    (P := fun s₁ => Kept org B s₁ s₁.InRound ∧ Quiet (s.syncClks t) s₁ ∧ s₁.ckRound = s.ckRound ∧
      s₁.OldestFirst B t ∧ s₁.FreesCovered B t ∧ (s₁.phase.Ckpting ∨ s₁.NothingDue B t))
    (Q := fun s₁ => Kept org B s₁ s₁.InRound ∧ Quiet (s.syncClks t) s₁ ∧ s₁.ckRound = s.ckRound ∧
      s₁.OldestFirst B t)
    (R := fun s₁ => Kept org B s₁ s₁.InRound) ?_ ?_ ?_ ?_ ?_ ?_ ?_
  · exact ⟨h.congr {} {} (fun _ => id) (fun h₁ => { h₁ with }) (fun h₁ => { h₁ with })
      fun h₁ => { h₁ with }, Quiet.refl _, rfl, ho, hf, hp⟩
  · rintro s₁ r ⟨h₁, hq, hround, ho₁, hf₁, hp₁⟩
    exact ⟨h₁.congr {} {} (fun _ => id) (fun h₂ => { h₂ with }) (fun h₂ => { h₂ with })
      fun h₂ => { h₂ with }, { hq with }, hround, ho₁, hf₁, hp₁⟩
  · exact fun s₁ h₁ _ => ⟨h₁.1, h₁.2.1, h₁.2.2.1, h₁.2.2.2.1⟩
  · rintro s₁ ⟨h₁, hq, hround, ho₁, hf₁, hp₁⟩ -
    have hs₁ := hq.synced (synced_syncClks s t)
    have hq' := quiet_tvlogReclaim (B := B) s₁ t
    have hround' := (tvlogReclaim_logs s₁ B t).1
    have h₂ := kept_tvlogReclaim h₁ hs₁ (hq.tids ▸ ht) (fun _ => hf₁) fun _ => hp₁
    refine ⟨{ h₂ with image := h₂.image.mono fun t' ht' => ?_ }, hq.trans hq',
      hround'.trans hround, oldestFirst_tvlogReclaim ho₁ h₁.logs⟩
    rw [State.InRound, hround', hq'.round]
    exact ht'
  · rintro s₁ r ⟨h₁, hq, hround, ho₁⟩
    exact ⟨h₁.congr {} {} (fun _ => id) (fun h₂ => { h₂ with }) (fun h₂ => { h₂ with })
      fun h₂ => { h₂ with }, { hq with }, hround, ho₁⟩
  · exact fun s₁ h₁ _ => h₁.1
  · rintro s₁ ⟨h₁, hq, hround, ho₁⟩ -
    refine kept_ckptlogReclaim h₁ fun _ => ⟨?_, hq.synced (synced_syncClks s t), ?_, ho₁⟩
    · rw [State.InRound, hround, hq.round]
      exact hR
    · rw [hq.phase]
      exact hb

theorem image_ckptlogCleanup (h : Image B s R) (t u : ℕ) :
    Image B (s.ckptlogCleanup B t u) R := by
  refine { h with freed := fun o ho => ?_ }
  rcases ho with ho | ⟨t', ho⟩
  · rcases List.mem_append.mp ho with ho | ho
    · exact h.freed o (Or.inl ho)
    · exact h.freed o (Or.inr ⟨t, (List.mem_filter.mp ho).1⟩)
  · change o ∈ Function.update s.ckFree t _ t' at ho
    by_cases heq : t' = t
    · rw [heq, Function.update_self] at ho
      exact h.freed o (Or.inr ⟨t, (List.mem_filter.mp ho).1⟩)
    · rw [Function.update_of_ne heq] at ho
      exact h.freed o (Or.inr ⟨t', ho⟩)

theorem image_reapThread (h : Image B (s.reapLogs B t) R) : Image B (s.reapThread B t) R := by
  have hclean := image_ckptlogCleanup h t maxVersion
  exact reapThread_rule (P := fun s₁ => Image B s₁ R) h (fun _ => { hclean with })
    fun _ => { hclean with }

/-! ### Transactions -/

theorem image_lock (h : Image B s R) (hc : Core B s t W c) {t' o : ℕ} {kind : Kind} :
    Image B (s.lock t' o kind) R := by
  have hcopies : ∀ j < s.numCopies, (s.lock t' o kind).copies j = s.copies j ∧
      (s.lock t' o kind).status j = s.status j :=
    fun j hj => ⟨Function.update_of_ne (by omega) _ _, Function.update_of_ne (by omega) _ _⟩
  refine h.frame {} (fun _ => id) (fun o' ho' => ?_) (fun o' j hj hd => ?_) fun o' j hj hd => ?_
  · obtain ⟨k, hk, h1, h2⟩ := h.record o' ho'
    refine ⟨k, Nat.lt_succ_of_lt hk, ?_⟩
    rw [(hcopies k hk).1]
    exact ⟨h1, h2⟩
  · obtain ⟨he1, he2⟩ := hcopies j (hc.chains.mem o' j hj).1
    rw [he1, he2]
    exact ⟨hj, hd, rfl⟩
  · rw [(hcopies j (hc.chains.mem o' j hj).1).2] at hd
    exact ⟨hj, hd⟩

theorem image_write (h : Image B s R) {a : α} : Image B (s.write k a) R := by
  have hcopies := write_copies s k a
  refine h.frame {} (fun _ => id) (fun o ho => ?_) (fun o j hj hd => ?_) fun o j hj hd => ⟨hj, hd⟩
  · obtain ⟨j, hj, h1, h2⟩ := h.record o ho
    exact ⟨j, hj, (hcopies j).2.1.trans h1, (hcopies j).1.trans h2⟩
  · exact ⟨hj, hd, (hcopies j).2.2⟩

theorem image_commitCopy (h : Image B s R) {ks : List ℕ} (hc : Core B s t W (k :: ks))
    (hws : s.ws t = []) (hnd : (k :: ks).Nodup) : Image B (s.commitCopy t W k) R := by
  have hn := hc.next hws hnd
  have hrec : ∀ (x : Copy α) (o : ℕ), s.freeClk o ≠ none → ∃ j < s.numCopies,
      (Function.update s.copies k x j).kind = .free ∧ (Function.update s.copies k x j).obj = o := by
    intro x o ho
    obtain ⟨j, hj, h1, h2⟩ := h.record o ho
    refine ⟨j, hj, ?_⟩
    rw [Function.update_of_ne (hn.freed hj h1).1]
    exact ⟨h1, h2⟩
  have hwrt : ∀ (x : Copy α) (o : ℕ), ∀ j ∈ s.hist o,
      (Function.update s.copies k x j).wrtClk = (s.copies j).wrtClk := by
    intro x o j hj
    rw [Function.update_of_ne (hn.version hj)]
  unfold State.commitCopy
  split
  · -- the object was not freed before
    have hnone : s.freeClk (s.copies k).obj = none := by
      by_contra hsome
      obtain ⟨j, hj, h1, h2⟩ := h.record _ hsome
      exact (hn.freed hj h1).2 h2
    refine h.frame {} (fun o ho => ?_) (fun o ho => ?_) (fun o j hj hd => ⟨hj, hd, hwrt _ o j hj⟩)
      fun o j hj hd => ⟨hj, hd⟩
    · have hne : o ≠ (s.copies k).obj := by
        rintro rfl
        rw [State.FreeCovered, hnone] at ho
        exact ho
      have hsame : (s.commitFree W k).freeClk o = s.freeClk o := Function.update_of_ne hne _ _
      rw [State.FreeCovered, hsame]
      exact ho
    · by_cases heq : o = (s.copies k).obj
      · refine ⟨k, hn.self.1, ?_⟩
        show (Function.update s.copies k _ k).kind = .free ∧ (Function.update s.copies k _ k).obj = o
        rw [Function.update_self]
        exact ⟨rfl, heq.symm⟩
      · change Function.update s.freeClk (s.copies k).obj (some W) o ≠ none at ho
        rw [Function.update_of_ne heq] at ho
        exact hrec _ o ho
  have hconst : Image B (s.commitConst W k) R :=
    h.frame {} (fun _ => id) (hrec _) (fun o j hj hd => ⟨hj, hd, hwrt _ o j hj⟩)
      fun o j hj hd => ⟨hj, hd⟩
  split
  · refine h.frame {} (fun _ => id) (hrec _) (fun o j hj hd => ⟨?_, hd, hwrt _ o j hj⟩)
      fun o j hj hd => ⟨?_, hd⟩
    · show j ∈ Function.update s.hist (s.copies k).obj _ o
      by_cases heq : o = (s.copies k).obj
      · subst heq
        rw [Function.update_self]
        exact List.mem_cons_of_mem _ hj
      · rw [Function.update_of_ne heq]
        exact hj
    · -- the new version is not detached
      change j ∈ Function.update s.hist (s.copies k).obj _ o at hj
      by_cases heq : o = (s.copies k).obj
      · subst heq
        rw [Function.update_self] at hj
        rcases List.mem_cons.mp hj with rfl | hj
        · change s.status j = .detached at hd
          rw [hn.self.2.2.1] at hd
          contradiction
        · exact hj
      · rw [Function.update_of_ne heq] at hj
        exact hj
  · exact hconst
  · exact hconst

theorem image_tvlogCommit (h : Image B s R) (hc : Core B s t W []) (hv : s.Reading B W)
    (hW : s.localClk t < W) (info : β) : Image B (s.tvlogCommit t W info) R :=
  (commit_induction (P := fun s₁ _ => Image B s₁ R)
    (fun _ _ _ hc₁ hws hnd _ _ h₁ => image_commitCopy h₁ hc₁ hws hnd)
    (s.ws t) (s.commitSet t W info) (core_commitSet hc hv) (Function.update_self _ _ _)
    (hc.locks.nodup t) hW (le_max_right _ _) { h with }).2.2

/-! ### Rounds -/

theorem Image.phase (h : Image B s R) {p : Phase} (hck : s.phase.Ckpting → p.Ckpting)
    (hb : s.phase.Between → p.Between) : Image B { s with phase := p } R :=
  { h with
    late := fun e he ht => (h.late e he ht).imp_right fun ⟨h1, h2, h3⟩ => ⟨h1, h2, hck h3⟩
    qps := ⟨h.qps.1, h.qps.2.1, h.qps.2.2.imp_left hb⟩ }

/-- No entry is beyond the published checkpoint outside a checkpoint round. -/
theorem Image.le_nvmLastCkpt (h : Image B s R) (hcont : Contents org s) (hp : ¬ s.phase.Ckpting)
    {e : ℕ} (he : e < s.numEntries) (ho : ¬ s.FreeCovered B (s.entries e).obj) :
    (s.entries e).ckptSClk ≤ s.nvmLastCkpt := by
  refine (h.late e he (h.isTomb_eq_false hcont he ho)).resolve_right fun hlate => ?_
  exact hp hlate.2.2

theorem image_detected {clk : ℕ} (h : Image B s R) (hc : Core B s t W c) (hcont : Contents org s)
    (hp : s.phase = .waiting clk) : Image B (s.advanceQpClock B clk) R' := by
  have hck : ¬ s.phase.Ckpting := by
    rw [hp]
    exact id
  have hlt := (hc.clocks.wait clk hp).2
  rw [ltClock_iff] at hlt
  obtain ⟨h1, h2, -⟩ := h.qps
  refine { h with
    late := fun e he ht => Or.inl ((h.late e he ht).resolve_right fun hlate => hck hlate.2.2)
    passed := fun t' e he ho => ?_
    qps := ⟨h2, ?_, Or.inr ?_⟩ }
  · -- what was checkpointed in the round before is published
    refine (h.passed t' e he ho).imp_right fun ⟨e', h1, h2, h3, _⟩ => ?_
    refine ⟨e', h1, h2, h3, Or.inl (h.le_nvmLastCkpt hcont hck h1 ?_)⟩
    rw [h3]
    exact ho
  · show s.qpClks.qp0 ≤ correctQpClock B clk
    omega
  · show s.qpClks.qp0 + B < correctQpClock B clk
    omega

theorem image_publish {r : Reclaim} (h : Image B s R) (hc : Core B s t W c) (hl : CkptLogs s)
    (hp : s.phase = .barrier r) : Image B (s.publish r) R := by
  have hle : s.nvmLastCkpt ≤ s.qpClks.qp0 := by
    rw [hc.clocks.nvm]
    exact hc.clocks.ckpt
  by_cases hck : r.tvlog = .ckpt
  · have hfree : ∀ o, s.FreeCovered B o → (s.publish r).FreeCovered B o := by
      intro o ho
      unfold State.FreeCovered at ho ⊢
      show (match s.freeClk o with
        | some W => ltClock B W (if r.tvlog = .ckpt then s.qpClks.qp0 else s.nvmLastCkpt)
        | none => False)
      rw [if_pos hck]
      cases hf : s.freeClk o with
      | none =>
        rw [hf] at ho
        exact ho
      | some W =>
        rw [hf] at ho
        dsimp only at ho ⊢
        rw [ltClock_iff] at *
        omega
    have hL : (s.publish r).nvmLastCkpt = s.qpClks.qp0 := if_pos hck
    have hq : (s.publish r).qpClks = { s.qpClks with lastCkpt := s.qpClks.qp0 } := if_pos hck
    refine { h with
      tomb := fun e he => hfree _ (h.tomb e he)
      freed := fun o ho => hfree o (h.freed o ho)
      late := fun e he ht => Or.inl ?_
      order := fun e₂ h2 e₁ h1 hobj ho => h.order e₂ h2 e₁ h1 hobj fun hf => ho (hfree _ hf)
      cur := fun e he ho => h.cur e he fun hf => ho (hfree _ hf)
      master := fun o => ?_
      oldest := fun e hd ho => h.oldest e hd fun hf => ho (hfree _ hf)
      gone := fun e hd ho => ?_
      passed := fun t e he ho => ?_
      qps := ?_ }
    · rw [hL]
      exact hl.qp0 e he
    · refine (h.master o).imp_right fun hm => ?_
      rw [hL]
      show ltClock B (s.masterWrt o) s.qpClks.qp0
      rw [ltClock_iff] at *
      omega
    · refine (h.gone e hd fun hf => ho (hfree _ hf)).imp_right fun ⟨e', h1, h2, h3, h4⟩ => ?_
      refine ⟨e', h1, h2, h3, ?_⟩
      rw [hL]
      exact le_trans h4 hle
    · refine (h.passed t e he fun hf => ho (hfree _ hf)).imp_right fun ⟨e', h1, h2, h3, _⟩ => ?_
      refine ⟨e', h1, h2, h3, Or.inl ?_⟩
      rw [hL]
      exact hl.qp0 e' h1
    · rw [hq]
      exact ⟨h.qps.1, h.qps.2.1, Or.inl trivial⟩
  · have hidle : Image B { s with phase := .idle } R := by
      refine h.phase (fun hn => ?_) fun _ => trivial
      rw [hp] at hn
      exact absurd hn hck
    unfold State.publish
    rw [if_neg hck, if_neg hck]
    exact { hidle with }

/-- Steps that reclaim no checkpoint log and send no request. -/
theorem Rounds.mono (h : Rounds s) (hclk : s'.ckRound = s.ckRound) (hround : s'.round = s.round)
    (hphase : s'.phase = s.phase) (hlive : ∀ t, s'.InLive t → s.InLive t)
    (hreq : ∀ t, s'.InLive t → s.req t = .none → s'.req t = .none)
    (hck : ∀ t, s'.InLive t → (s'.req t).ckptlog = (s.req t).ckptlog) : Rounds s' := by
  refine ⟨?_, ?_, fun r done hp t hl hd => ?_, fun t hl hr => ?_⟩
  · rw [hclk, hround]
    exact h.le
  · rw [hphase, hclk, hround]
    exact h.next
  · rw [hphase] at hp
    rw [hclk, hround]
    exact (h.trig r done hp t (hlive t hl) hd).imp_right (hreq t hl)
  · rw [hck t hl] at hr
    rw [hclk, hround]
    exact h.pending t (hlive t hl) hr

/-- The QP thread moves on in its round, or ends it. -/
theorem Rounds.phase (h : Rounds s) {p : Phase} (hd : p ≠ .detected)
    (ht : ∀ r done, p ≠ .trigger r done) : Rounds { s with phase := p } :=
  { h with
    next := fun hp => absurd hp hd
    trig := fun r done hp => absurd hp (ht r done) }

theorem rounds_life {l : Life} (h : Rounds s)
    (hl : s.InLive t ∨ ¬ (l = .live ∨ l = .finishing ∨ l = .flushed)) :
    Rounds { s with life := Function.update s.life t l } :=
  h.mono rfl rfl rfl (fun _ => inLive_of_update hl) (fun _ _ => id) fun _ _ => rfl

theorem rounds_ckptlogReclaim (h : Rounds s) (hi : Inv B s) (hl : s.InLive t) {wb : ℕ} :
    Rounds (s.ckptlogReclaim B t wb) := by
  have hq := quiet_ckptlogReclaim (B := B) s t wb
  have hreq := req_ckptlogReclaim s B t wb
  by_cases hr : (s.req t).ckptlog = .none
  · rw [State.ckptlogReclaim, hr]
    exact h
  have hck : (s.ckptlogReclaim B t wb).ckRound = Function.update s.ckRound t s.round := by
    unfold State.ckptlogReclaim
    split
    · contradiction
    · exact ckRound_ckptlogReclaimX s B t _
    · exact ckRound_ckptlogReclaimX s B t _
    · exact ckRound_ckptlogReclaimX s B t _
  have hne : s.req t ≠ .none := fun hn => hr (by rw [hn]; rfl)
  have hlive : ∀ t', (s.ckptlogReclaim B t wb).InLive t' → s.InLive t' := by
    intro t' ht'
    rw [State.InLive, hq.life] at ht'
    exact ht'
  refine ⟨fun t' => ?_, fun hp => ?_, fun r done hp t' hl' hd => ?_, fun t' hl' hr' => ?_⟩
  · rw [hck, hq.round]
    by_cases heq : t' = t
    · rw [heq, Function.update_self]
    · rw [Function.update_of_ne heq]
      exact h.le t'
  · -- no request is pending before the trigger
    rw [hq.phase] at hp
    exact absurd (hi.req.idle (by rw [hp]; rfl) hl) hne
  · rw [hq.phase] at hp
    obtain ⟨h1, h2⟩ := h.trig r done hp t' (hlive t' hl') hd
    have heq : t' ≠ t := by
      rintro rfl
      exact hne h2
    rw [hck, hq.round, hreq, Function.update_of_ne heq, Function.update_of_ne heq]
    exact ⟨h1, h2⟩
  · rw [hreq] at hr'
    have heq : t' ≠ t := by
      rintro rfl
      rw [Function.update_self] at hr'
      exact hr' rfl
    rw [Function.update_of_ne heq] at hr'
    rw [hck, hq.round, Function.update_of_ne heq]
    exact h.pending t' (hlive t' hl') hr'

theorem rounds_reapThread (h : Rounds s) (hz : s.life t = .zombie) {r : Reclaim} {done : List ℕ} :
    Rounds { s.reapThread B t with phase := .reap r done } := by
  have hf := reapThread_frame s B t
  have hlogs : (s.reapLogs B t).round = s.round ∧ (∀ t' ≠ t, (s.reapLogs B t).ckRound t' =
      s.ckRound t') ∧ (s.reapLogs B t).ckRound t ≤ s.round := by
    refine reapLogs_rule (P := fun s₁ => s₁.round = s.round ∧
      (∀ t' ≠ t, s₁.ckRound t' = s.ckRound t') ∧ s₁.ckRound t ≤ s.round) ?_ ?_ ?_ ?_
    · exact ⟨rfl, fun _ _ => rfl, h.le t⟩
    · exact fun _ _ h₁ => h₁
    · rintro s₁ h₁ -
      rw [(quiet_tvlogReclaim s₁ t).round, (tvlogReclaim_logs s₁ B t).1]
      exact h₁
    · rintro s₁ ⟨h1, h2, h3⟩
      refine ⟨(quiet_ckptlogReclaim s₁ t 0).round.trans h1, ?_⟩
      unfold State.ckptlogReclaim
      split
      · exact ⟨h2, h3⟩
      all_goals
        rw [ckRound_ckptlogReclaimX, Function.update_self]
        refine ⟨fun t' hne => ?_, le_of_eq h1⟩
        rw [Function.update_of_ne hne]
        exact h2 t' hne
  have hthread : (s.reapThread B t).round = s.round ∧ (∀ t' ≠ t, (s.reapThread B t).ckRound t' =
      s.ckRound t') ∧ (s.reapThread B t).ckRound t ≤ s.round :=
    reapThread_rule (P := fun s₁ => s₁.round = s.round ∧
      (∀ t' ≠ t, s₁.ckRound t' = s.ckRound t') ∧ s₁.ckRound t ≤ s.round) hlogs (fun _ => hlogs)
      fun _ => hlogs
  obtain ⟨h1, h2, h3⟩ := hthread
  refine ⟨fun t' => ?_, nofun, nofun, fun t' hl hr => ?_⟩
  · show (s.reapThread B t).ckRound t' ≤ (s.reapThread B t).round
    rw [h1]
    by_cases heq : t' = t
    · rw [heq]
      exact h3
    · rw [h2 t' heq]
      exact h.le t'
  · change (s.reapThread B t).InLive t' at hl
    change ((s.reapThread B t).req t').ckptlog ≠ .none at hr
    show (s.reapThread B t).ckRound t' < (s.reapThread B t).round
    -- a zombie is not in the live list
    have heq : t' ≠ t := by
      rintro rfl
      rw [State.InLive] at hl
      rcases hf.self with hl' | hl'
      · rw [hl', hz] at hl
        simp at hl
      · rw [hl'] at hl
        simp at hl
    rw [hf.req t' heq] at hr
    rw [h1, h2 t' heq]
    rw [State.InLive, hf.life t' heq] at hl
    exact h.pending t' hl hr

theorem rounds_step {op : Op α β} (h : Rounds s) (hi : Inv B s) (hs : step B s op = some s') :
    Rounds s' := by
  cases Step.of_step hs with
  | threadInit t hf hp =>
    refine { h with trig := fun r done hp' => ?_, pending := fun t' hl hr => ?_ }
    · exact absurd hp' (not_trigger_of_unlocked hp r done)
    · change (Function.update s.req t .none t').ckptlog ≠ .none at hr
      have hne : t' ≠ t := by
        rintro rfl
        rw [Function.update_self] at hr
        exact hr rfl
      rw [Function.update_of_ne hne] at hr
      exact h.pending t' (inLive_of_threadInit hne hl) hr
  | endTx t v info =>
    have hc : Rounds (s.tvlogCommit t v info) := by
      refine foldl_commitCopy_rule (P := Rounds) (fun s₁ k h₁ _ => ?_) { h with }
      unfold State.commitCopy
      split
      · exact { h₁ with }
      · split <;> exact { h₁ with }
    exact { hc with }
  | tvlogReclaim t =>
    have hq := quiet_tvlogReclaim (B := B) s t
    have hreq := req_tvlogReclaim s B t
    refine h.mono (tvlogReclaim_logs s B t).1 hq.round hq.phase (fun t' ht' => ?_)
      (fun t' _ hn => ?_) fun t' _ => ?_
    · rw [State.InLive, hq.life] at ht'
      exact ht'
    · rw [hreq]
      by_cases heq : t' = t
      · subst heq
        rw [Function.update_self, hn]
        rfl
      · rw [Function.update_of_ne heq]
        exact hn
    · rw [hreq]
      by_cases heq : t' = t
      · rw [heq, Function.update_self]
      · rw [Function.update_of_ne heq]
  | ckptlogReclaim t wb hm => exact rounds_ckptlogReclaim h hi hm.inLive
  | finishStart t hl => exact rounds_life h (Or.inl (Or.inl hl))
  | finishOplog t hl => exact { rounds_life h (Or.inl (Or.inr (Or.inl hl))) with }
  | deregister t => exact { rounds_life (t := t) (l := .limbo) h (Or.inr (by simp)) with }
  | zombinize t =>
    unfold State.zombinize
    split
    · exact { rounds_life (t := t) (l := .gone) h (Or.inr (by simp)) with }
    · exact rounds_life h (Or.inr (by simp))
  | threadFree t =>
    unfold State.threadFree
    dsimp only
    split
    · exact { h with }
    · exact { h with }
  | detect v => exact { h.phase (p := .waiting v) (by simp) (by simp) with }
  | detected clk =>
    refine ⟨fun t => Nat.le_succ_of_le (h.le t), fun _ t => Nat.lt_succ_of_le (h.le t),
      fun _ _ hp' => (by cases hp'), fun t _ _ => Nat.lt_succ_of_le (h.le t)⟩
  | skip => exact h.phase (by simp) (by simp)
  | startTrigger hp =>
    refine { h with
      next := fun hp' => by cases hp'
      trig := fun r done _ t hl _ => ⟨h.next hp t, ?_⟩ }
    exact hi.req.idle (by rw [hp]; rfl) hl
  | trigger t r done hp hl hd =>
    have hreq : ∀ t' ≠ t, (s.sendRequest t r).req t' = s.req t' :=
      fun t' hne => Function.update_of_ne hne _ _
    refine ⟨h.le, fun hp' => (by cases hp'), fun r' done' hp' t' hl' hd' => ?_, fun t' hl' hr => ?_⟩
    · cases hp'
      rw [List.mem_cons, not_or] at hd'
      obtain ⟨h1, h2⟩ := h.trig r done hp t' hl' hd'.2
      exact ⟨h1, (hreq t' hd'.1).trans h2⟩
    · by_cases heq : t' = t
      · rw [heq]
        exact (h.trig r done hp t hl hd).1
      · refine h.pending t' hl' ?_
        rw [← hreq t' heq]
        exact hr
  | endTrigger r => exact h.phase (by simp) (by simp)
  | reapLock r => exact h.phase (by simp) (by simp)
  | reap t r done _ hz => exact rounds_reapThread h hz
  | reapRetry r => exact h.phase (by simp) (by simp)
  | endReap r => exact h.phase (by simp) (by simp)
  | startBarrier r => exact { h.phase (p := .barrier r) (by simp) (by simp) with }
  | publish r => exact { h.phase (p := .idle) (by simp) (by simp) with }
  | _ => exact { h with }

/-! ### The steps -/

/-- A pending request belongs to a round, and to a checkpoint round if it asks for a
checkpoint. -/
theorem Inv.ckpting (hi : Inv B s) (hl : s.InLive t) (hr : s.req t ≠ .none) :
    ¬ s.phase.Between ∧ ((s.req t).tvlog = .ckpt → s.phase.Ckpting) := by
  obtain ⟨-, r, hact, htv⟩ := hi.req t hl hr
  have hck : (s.req t).tvlog = .ckpt → r.tvlog = .ckpt := by
    intro hm
    rcases htv with htv | htv
    · rw [hm] at htv
      contradiction
    · exact htv.symm.trans hm
  rcases hp : s.phase with _ | clk | _ | ⟨r', done⟩ | r' | ⟨r', done⟩ | r' | r'
  all_goals
    rw [hp] at hact
    simp only [Phase.active, Option.some_inj, reduceCtorEq] at hact
  all_goals
    subst hact
    exact ⟨id, hck⟩

theorem image_step {op : Op α β} (h : Image B s s.InRound) (hi : Inv B s) (hr : Rounds s)
    (hcont : Contents org s) (hcov : Cover B s) (hl : CkptLogs s) (hok : RestoreOk B s op)
    (hs : step B s op = some s') : Image B s' s'.InRound := by
  have hk : Kept org B s s.InRound := ⟨hi.core, hcont, hcov, hl, h⟩
  have hround : ∀ {p : Phase}, (s.phase.Ckpting → p.Ckpting) → (s.phase.Between → p.Between) →
      Image B { s with phase := p } s.InRound := h.phase
  cases Step.of_step hs with
  | lock t o kind => exact image_lock h hi.core
  | write t k a => exact image_write h
  | endTx t v info _ hv hgt =>
    rw [gtClock_iff] at hgt
    have hc := image_tvlogCommit h (hi.core.retag t v) hv (by omega) info
    have hsame : (s.tvlogCommit t v info).ckRound = s.ckRound ∧
        (s.tvlogCommit t v info).round = s.round := by
      refine foldl_commitCopy_rule (P := fun s₁ => s₁.ckRound = s.ckRound ∧ s₁.round = s.round)
        (fun s₁ k h₁ _ => ?_) ⟨rfl, rfl⟩
      unfold State.commitCopy
      split
      · exact h₁
      · split <;> exact h₁
    refine { hc.mono fun t' ht' => ?_ with }
    show (s.tvlogCommit t v info).ckRound t' = (s.tvlogCommit t v info).round
    rw [hsame.1, hsame.2]
    exact ht'
  | tvlogReclaim t hm =>
    by_cases hreq : s.req t = .none
    · have he : s.tvlogReclaim B t = s := by
        rw [State.tvlogReclaim, hreq]
        rfl
      rw [he]
      exact h
    obtain ⟨-, hck⟩ := hi.ckpting hm.inLive hreq
    have h₁ := kept_tvlogReclaim hk (hi.req t hm.inLive hreq).1 (hi.tx.mem_tids hm.inLive) hok.2
      fun hmode => Or.inl (hck hmode)
    refine h₁.image.mono fun t' ht' => ?_
    rw [State.InRound, (tvlogReclaim_logs s B t).1, (quiet_tvlogReclaim s t).round]
    exact ht'
  | ckptlogReclaim t wb hm =>
    refine (kept_ckptlogReclaim hk fun hreq => ?_).image
    have hne : s.req t ≠ .none := fun hn => hreq (by rw [hn]; rfl)
    refine ⟨fun hin => ?_, (hi.req t hm.inLive hne).1, (hi.ckpting hm.inLive hne).1, hok.2 hreq⟩
    have hlt := hr.pending t hm.inLive hreq
    rw [State.InRound] at hin
    omega
  | zombinize t =>
    unfold State.zombinize
    split
    · exact { image_ckptlogCleanup h t maxVersion with }
    · exact { h with }
  | threadFree t =>
    unfold State.threadFree
    dsimp only
    split
    · have hdead : Image B { s with dead := Function.update s.dead t true } s.InRound := { h with }
      exact { image_ckptlogCleanup hdead t maxVersion with }
    · exact { h with }
  | detect v hp => exact { hround (p := .waiting v) (by rw [hp]; exact id) fun _ => trivial with }
  | cleanup t clk => exact { image_ckptlogCleanup h t _ with }
  | detected clk hp => exact image_detected h hi.core hcont hp
  | skip hp => exact hround (by rw [hp]; exact id) fun _ => trivial
  | startTrigger hp =>
    exact { hround (p := .trigger s.qpReq []) (by rw [hp]; exact False.elim)
      (by rw [hp]; exact False.elim) with }
  | trigger t r done hp =>
    exact { hround (p := .trigger r (t :: done)) (by rw [hp]; exact id) (by rw [hp]; exact id) with }
  | endTrigger r done hp => exact hround (by rw [hp]; exact id) (by rw [hp]; exact id)
  | reapLock r hp => exact hround (by rw [hp]; exact id) (by rw [hp]; exact id)
  | reap t r done hp hz =>
    obtain ⟨-, hdue, hf, ho, hlt⟩ := hok
    have hmem : t ∈ s.tids := hi.tx.reg t (by rw [hz]; simp)
    have hR : ¬ s.InRound t := fun hin => absurd hin (Nat.ne_of_lt hlt)
    have h₁ := kept_reapLogs hk hmem hdue hf ho hR (by rw [hp]; exact id)
    have hphase : (s.reapLogs B t).phase = .reap r done := (reapLogs_frame s B t).1.phase.trans hp
    have h₂ : Image B (s.reapThread B t) (s.reapThread B t).InRound := by
      refine (image_reapThread h₁.image).mono fun t' ht' => ?_
      exact reapThread_rule (P := fun s₁ => s₁.InRound t') ht' (fun _ => ht') fun _ => ht'
    have hphase' : (s.reapThread B t).phase = .reap r done :=
      reapThread_rule (P := fun s₁ => s₁.phase = .reap r done) hphase (fun _ => hphase)
        fun _ => hphase
    exact h₂.phase (by rw [hphase']; exact id) (by rw [hphase']; exact id)
  | reapRetry r done hp => exact hround (by rw [hp]; exact id) (by rw [hp]; exact id)
  | endReap r done hp => exact hround (by rw [hp]; exact id) (by rw [hp]; exact id)
  | startBarrier r hp =>
    exact { hround (p := .barrier r) (by rw [hp]; exact id) (by rw [hp]; exact id) with }
  | publish r hp => exact image_publish h hi.core hl hp
  | _ => exact { h with }

theorem image_initial (org : ℕ → α) :
    Image B (initial org : State α β) (initial org : State α β).InRound := by
  refine ⟨nofun, ?_, fun o ho => absurd rfl ho, nofun, nofun, nofun, nofun, nofun, nofun,
    fun o => Or.inl rfl, nofun, nofun, nofun, nofun, ⟨le_refl _, le_refl _, Or.inl trivial⟩⟩
  rintro o (ho | ⟨t, ho⟩)
  · contradiction
  · contradiction

theorem rounds_initial (org : ℕ → α) : Rounds (initial org : State α β) := by
  refine ⟨fun t => le_refl _, nofun, nofun, fun t ht => ?_⟩
  rcases ht with ht | ht | ht <;> contradiction

/-- What holds in every run in which the condition is met. -/
structure Restorable (org : ℕ → α) (B : ℕ) (s : State α β) : Prop where
  inv : Inv B s
  sets : Sets B s
  roundOk : RoundOk B s
  rounds : Rounds s
  kept : Kept org B s s.InRound

theorem Reachable.restorable (hr : Reachable B org (RestoreOk B) s) : Restorable org B s := by
  refine Run.Reach.invariant (I := Restorable org B) ?_ ?_ hr
  · rintro s rfl
    exact ⟨inv_initial org, sets_initial org, trivial, rounds_initial org, (inv_initial org).core,
      contents_initial org, cover_initial org, ckptLogs_initial org, image_initial org⟩
  · rintro s op s' ⟨hi, hsets, hro, hrounds, -, hcont, hcov, hl, himg⟩ hok hs
    have hi' := inv_step hi hs
    exact ⟨hi', sets_step hsets hi hs, roundOk_step hro hi hsets hok.1 hs,
      rounds_step hrounds hi hs, hi'.core, contents_step hcont hi hs, cover_step hcov hi hro hs,
      ckptLogs_step hl hi hs, image_step himg hi hrounds hcont hcov hl hok hs⟩

/-- In every state of a run in which the condition is met, recovery restores the newest
version of an object that the published checkpoint covers, or the first content of an
object that has none, unless the checkpoint covers a free of the object. -/
theorem recovery_restores_ckpt (hr : Reachable B org (RestoreOk B) s) {o : ℕ}
    (ho : ¬ s.FreeCovered B o) :
    (∀ k ∈ s.hist o, ltClock B (s.copies k).wrtClk s.nvmLastCkpt →
      (∀ j ∈ s.hist o, ltClock B (s.copies j).wrtClk s.nvmLastCkpt →
        (s.copies j).wrtClk ≤ (s.copies k).wrtClk) → s.recovered o = (s.copies k).content) ∧
    ((∀ k ∈ s.hist o, ¬ ltClock B (s.copies k).wrtClk s.nvmLastCkpt) →
      s.recovered o = some (org o)) := by
  obtain ⟨-, -, -, -, hc, hcont, hcov, hl, himg⟩ := hr.restorable
  constructor
  · exact fun k hk hlt hnew => himg.recovered_eq hc hl hcont hcov ho hk hlt hnew
  · exact fun hnone => himg.recovered_org hl hcont ho hnone

/-- The threads 0 and 1 write the object 5 one after the other, both versions are
checkpointed, written back and dropped, and the thread 0 writes a third version that no
checkpoint covers.  Recovery restores the second one. -/
theorem recovery_restores_ckpt_second : ∃ s : State ℕ ℕ,
    Reachable 0 (fun _ => 0) (RestoreOk 0) s ∧ s.hist 5 = [2, 1, 0] ∧ s.dropped 1 = true ∧
      s.recovered 5 = some 22 := by
  have hd : (Run.exec (step 0) (RestoreOk 0) (initial fun _ => 0 : State ℕ ℕ)
      ([.threadInit 0, .threadInit 1, .begin 0 10, .lock 0 5 .copy, .write 0 0 11,
        .endTx 0 20 7] ++ roundOfTwo 40 ⟨.ckpt, .none⟩ ++
        [.begin 1 50, .lock 1 5 .copy, .write 1 1 22, .endTx 1 60 8] ++
        roundOfTwo 70 ⟨.ckpt, .none⟩ ++ roundOfTwo 80 ⟨.bestEffort, .none⟩ ++
        roundOfTwo 90 ⟨.bestEffort, .none⟩ ++ roundOfTwo 100 ⟨.bestEffort, .writebackAll⟩ ++
        roundOfTwo 110 ⟨.bestEffort, .bestEffort⟩ ++
        [.begin 0 120, .lock 0 5 .copy, .write 0 2 33, .endTx 0 130 9])).map (fun s =>
        decide ((s.hist 5 = [2, 1, 0] ∧ s.dropped 1 = true) ∧ ¬ s.FreeCovered 0 5 ∧
          ltClock 0 (s.copies 1).wrtClk s.nvmLastCkpt ∧
          (∀ j ∈ s.hist 5, ltClock 0 (s.copies j).wrtClk s.nvmLastCkpt →
            (s.copies j).wrtClk ≤ (s.copies 1).wrtClk) ∧ (s.copies 1).content = some 22)) =
      some true := by
    decide +kernel
  obtain ⟨s, hs, hp⟩ := Option.map_eq_some_iff.mp hd
  obtain ⟨⟨h1, h2⟩, h3, h4, h5, h6⟩ := of_decide_eq_true hp
  have hr : Reachable 0 (fun _ => 0) (RestoreOk 0) s := .of_exec (.init rfl) hs
  refine ⟨s, hr, h1, h2, ?_⟩
  rw [← h6]
  exact (recovery_restores_ckpt hr h3).1 1 (by rw [h1]; simp) h4 h5

/-- The thread 0 writes the objects 6 and 5, and the thread 1 writes the object 5 after the
checkpoint.  The watermark lets the thread 1 write its entry back and drop it, and stops
the thread 0 at its entry of the object 6.  Recovery finds the older entry of the object 5
behind it and goes back to the first version. -/
theorem recovery_goes_back : ∃ s : State ℕ ℕ, Reachable 0 (fun _ => 0) (LeavesSettled 0) s ∧
    ¬ s.FreeCovered 0 5 ∧ s.hist 5 = [2, 1] ∧
    ltClock 0 (s.copies 2).wrtClk s.nvmLastCkpt ∧ (s.copies 2).content = some 22 ∧
    s.master 5 = some 22 ∧ s.recovered 5 = some 11 := by
  have hd : (Run.exec (step 0) (LeavesSettled 0) (initial fun _ => 0 : State ℕ ℕ)
      ([.threadInit 0, .threadInit 1, .begin 0 10, .lock 0 6 .copy, .lock 0 5 .copy,
        .write 0 1 11, .endTx 0 20 7] ++ roundOfTwo 40 ⟨.ckpt, .none⟩ ++
        [.begin 1 50, .lock 1 5 .copy, .write 1 2 22, .endTx 1 60 8] ++
        roundOfTwo 70 ⟨.ckpt, .none⟩ ++ roundOfTwo 80 ⟨.bestEffort, .none⟩ ++
        roundOfTwo 90 ⟨.bestEffort, .none⟩ ++
        [.request ⟨.bestEffort, .writeback⟩, .detect 100, .detected, .startTrigger, .trigger 0,
          .trigger 1, .endTrigger, .reapLock, .endReap, .tvlogReclaim 0, .ckptlogReclaim 0 0,
          .tvlogReclaim 1, .ckptlogReclaim 1 1, .startBarrier, .publish] ++
        roundOfTwo 110 ⟨.bestEffort, .bestEffort⟩)).map (fun s =>
        decide (¬ s.FreeCovered 0 5 ∧ s.hist 5 = [2, 1] ∧
          ltClock 0 (s.copies 2).wrtClk s.nvmLastCkpt ∧ (s.copies 2).content = some 22 ∧
          s.master 5 = some 22 ∧ s.recovered 5 = some 11)) = some true := by
    decide +kernel
  exact Run.Reach.exists_of_exec (.init rfl) hd

end TimeStone.System
