/-
The clock of a tombstone.

`ckptlog_cleanup` deallocates an object of a free set when its `tombstone_clk` is older
than a given clock.  A free record whose object has the original master as its current
one is turned into a tombstone entry, and the clock is noted in the volatile header.  If
the current master is an entry of a checkpoint log, this entry is marked instead, and the
header keeps `MAX_VERSION`: the object goes to a free set when the head passes the entry, and
is never deallocated, because no clock is newer than that, not even the one of
`ckptlog_destroy` (`marked_header_leaks`).

* `State.CarriesClock` — the objects in a free set carry the clock of their tombstones, and
  `ckptlog_destroy` deallocates each of them once;
* `State.Appended` — their entries were appended as tombstones;
* `AppendsTombstones` — the free records that a reclamation comes to are of objects with
  the original master;
* `Tombstones` — an object has one tombstone, and its header has the clock of the entry if it
  was appended as a tombstone;
* `carriesClock_iff` — the first two are equivalent in every run, and hold in every run in
  which tombstones are only appended.
-/
import TimeStone.System.Freeing

namespace TimeStone.System

variable {α β : Type*} {B t W k : ℕ} {s s' : State α β} {c : List ℕ}

namespace State

variable (s : State α β)

/-- Every object in the free set of `t` has the clock of its tombstone, which a head has
passed, and `ckptlog_destroy` empties the free set and deallocates its objects once. -/
def CarriesClock (B t : ℕ) : Prop :=
  (∀ o ∈ s.ckFree t, s.tombstoneClk o ≠ maxVersion ∧ ∃ e, s.tombstone e = true ∧
    (s.entries e).obj = o ∧ s.dropped e = true ∧ s.tombstoneClk o = (s.entries e).ckptSClk) ∧
  (s.destroyLogs B t).ckFree t = [] ∧
  ∀ o ∈ s.ckFree t, (s.destroyLogs B t).freed.count o = 1

/-- The objects in the free set of `t` got there by entries that were appended as
tombstones. -/
def Appended (t : ℕ) : Prop :=
  ∀ o ∈ s.ckFree t, ∀ e, s.tombstone e = true → (s.entries e).obj = o → (s.entries e).isTomb = true

/-- The copies that the first loop of `tvlog_reclaim_x` comes to. -/
def recordsReached (B t : ℕ) (mode : TvReq) : List ℕ :=
  ((s.tvOld t).flatMap (·.copies)).takeWhile fun k => (s.copies k).kind = .free ∨
    ¬ (mode = .bestEffort ∧ gteClock B (s.wrtClkPrev k) (s.clks t).qp0)

/-- The free records among them are marked, or the original master of their object is the
current one. -/
def OrgCurrent (B t : ℕ) (mode : TvReq) : Prop :=
  ∀ k ∈ s.recordsReached B t mode, (s.copies k).kind = .free → s.status k ≠ .tombstoneMarked →
    s.curAct (s.copies k).obj = none

instance (B t : ℕ) (mode : TvReq) : Decidable (s.OrgCurrent B t mode) :=
  inferInstanceAs (Decidable (∀ k ∈ _, _))

end State

/-- The condition on the steps that reclaim a transient version log. -/
def AppendsTombstones (B : ℕ) (s : State α β) : Op α β → Prop
  | .tvlogReclaim t => (s.req t).tvlog ≠ .none → s.OrgCurrent B t (s.req t).tvlog
  | .reap t => s.OrgCurrent B t .ckpt
  | _ => True

instance (s : State α β) (op : Op α β) : Decidable (AppendsTombstones B s op) := by
  unfold AppendsTombstones
  induction op using Op.casesOn <;> infer_instance

/-- The tombstones of all objects.  A marked free record stands behind each of them. -/
structure Tombstones (s : State α β) : Prop where
  own : ∀ e, s.tombstone e = true → e < s.numEntries ∧ ∃ k < s.numCopies,
    (s.copies k).kind = .free ∧ (s.copies k).obj = (s.entries e).obj ∧
      s.status k = .tombstoneMarked
  flag : ∀ e < s.numEntries, (s.entries e).isTomb = true → s.tombstone e = true
  uniq : ∀ e₁ e₂, s.tombstone e₁ = true → s.tombstone e₂ = true →
    (s.entries e₁).obj = (s.entries e₂).obj → e₁ = e₂
  appended : ∀ e, s.tombstone e = true → (s.entries e).isTomb = true →
    s.tombstoneClk (s.entries e).obj = (s.entries e).ckptSClk
  marked : ∀ e, s.tombstone e = true → (s.entries e).isTomb = false →
    s.tombstoneClk (s.entries e).obj = maxVersion
  none : ∀ o, (∀ e, s.tombstone e = true → (s.entries e).obj ≠ o) → s.tombstoneClk o = maxVersion

/-! ### Tombstones -/

/-- Steps that mark nothing and enqueue nothing. -/
theorem Tombstones.frame (h : Tombstones s) (hentries : s'.entries = s.entries)
    (hnum : s'.numEntries = s.numEntries) (htomb : s'.tombstone = s.tombstone)
    (hclk : s'.tombstoneClk = s.tombstoneClk) (hfree : RecordsKept s s') : Tombstones s' := by
  refine ⟨fun e he => ?_, ?_, ?_, ?_, ?_, ?_⟩
  · rw [htomb] at he
    rw [hentries, hnum]
    obtain ⟨h1, k, hk, h2, h3, h4⟩ := h.own e he
    obtain ⟨h5, h6, h7, h8⟩ := hfree k hk h2 h4
    exact ⟨h1, k, h5, h6, h7.trans h3, h8⟩
  · rw [hentries, hnum, htomb]
    exact h.flag
  · rw [hentries, htomb]
    exact h.uniq
  · rw [hentries, htomb, hclk]
    exact h.appended
  · rw [hentries, htomb, hclk]
    exact h.marked
  · rw [hentries, htomb, hclk]
    exact h.none

/-- A free record that is not marked is of an object without a tombstone. -/
theorem Tombstones.ne_of_free (h : Tombstones s) (hc : Core B s t W c) (hk : k < s.numCopies)
    (hkind : (s.copies k).kind = .free) (hst : s.status k ≠ .tombstoneMarked) {e : ℕ}
    (he : s.tombstone e = true) : (s.entries e).obj ≠ (s.copies k).obj := by
  intro heq
  obtain ⟨-, i, hi, h1, h2, h3⟩ := h.own e he
  rw [hc.free_unique hi hk h1 hkind (h2.trans heq)] at h3
  exact hst h3

/-- An entry that is no tombstone is enqueued. -/
theorem tombstones_enq (h : Tombstones s) (t : ℕ) {x : CkptEntry α} (hx : x.isTomb = false) :
    Tombstones (s.ckptlogEnq t x) := by
  have htomb : ∀ e, (s.ckptlogEnq t x).tombstone e = true → s.tombstone e = true ∧
      (s.ckptlogEnq t x).entries e = s.entries e ∧ e < s.numEntries := by
    intro e he
    change Function.update s.tombstone s.numEntries x.isTomb e = true at he
    have hne : e ≠ s.numEntries := by
      rintro rfl
      rw [Function.update_self, hx] at he
      contradiction
    rw [Function.update_of_ne hne] at he
    exact ⟨he, Function.update_of_ne hne _ _, (h.own e he).1⟩
  refine ⟨fun e he => ?_, fun e he hflag => ?_, fun e₁ e₂ he₁ he₂ heq => ?_, fun e he => ?_,
    fun e he => ?_, fun o ho => ?_⟩
  · obtain ⟨h1, h2, h3⟩ := htomb e he
    rw [h2]
    exact ⟨Nat.lt_succ_of_lt h3, (h.own e h1).2⟩
  · change (Function.update s.entries s.numEntries x e).isTomb = true at hflag
    have hne : e ≠ s.numEntries := by
      rintro rfl
      rw [Function.update_self, hx] at hflag
      contradiction
    rw [Function.update_of_ne hne] at hflag
    have hlt : e < s.numEntries + 1 := he
    exact (Function.update_of_ne hne _ _).trans (h.flag e (by omega) hflag)
  · obtain ⟨h1, h2, -⟩ := htomb e₁ he₁
    obtain ⟨h3, h4, -⟩ := htomb e₂ he₂
    rw [h2, h4] at heq
    exact h.uniq e₁ e₂ h1 h3 heq
  · obtain ⟨h1, h2, -⟩ := htomb e he
    rw [h2]
    exact h.appended e h1
  · obtain ⟨h1, h2, -⟩ := htomb e he
    rw [h2]
    exact h.marked e h1
  · refine h.none o fun e he => ?_
    have hne : e ≠ s.numEntries := Nat.ne_of_lt (h.own e he).1
    have hent : (s.ckptlogEnq t x).entries e = s.entries e := Function.update_of_ne hne _ _
    rw [← hent]
    exact ho e ((Function.update_of_ne hne _ _).trans he)

theorem tombstones_markTombstone (h : Tombstones s) (hc : Core B s t W []) {t' : ℕ} {w : WrtSet}
    (hw : w ∈ s.tvOld t') (hk : k ∈ w.copies) (hkind : (s.copies k).kind = .free) :
    Tombstones (s.markTombstone t' w.wrtClk k) := by
  have hlt := (hc.member (List.mem_append_left _ hw) hk).1
  unfold State.markTombstone
  dsimp only
  split
  · exact h
  rename_i hst
  -- this is the first tombstone of the object
  have hobj : ∀ e, s.tombstone e = true → (s.entries e).obj ≠ (s.copies k).obj :=
    fun e he => h.ne_of_free hc hlt hkind hst he
  split
  · -- a tombstone is appended
    have hold : ∀ e < s.numEntries, ∀ x : CkptEntry α,
        Function.update s.entries s.numEntries x e = s.entries e :=
      fun e he x => Function.update_of_ne (by omega) _ _
    have hcases : ∀ e, Function.update s.tombstone s.numEntries true e = true →
        e = s.numEntries ∨ s.tombstone e = true ∧ e < s.numEntries := by
      intro e he
      by_cases heq : e = s.numEntries
      · exact Or.inl heq
      · rw [Function.update_of_ne heq] at he
        exact Or.inr ⟨he, (h.own e he).1⟩
    refine ⟨fun e he => ?_, fun e he hflag => ?_, fun e₁ e₂ he₁ he₂ heq => ?_,
      fun e he hflag => ?_, fun e he hflag => ?_, fun o ho => ?_⟩ <;> dsimp only [State.ckptlogEnq] at *
    · rcases hcases e he with rfl | ⟨he, hle⟩
      · rw [Function.update_self]
        exact ⟨Nat.lt_succ_self _, k, hlt, hkind, rfl, Function.update_self _ _ _⟩
      · rw [hold e hle]
        obtain ⟨-, i, hi, h1, h2, h3⟩ := h.own e he
        exact ⟨Nat.lt_succ_of_lt hle, i, hi, h1, h2, marked_update k h3⟩
    · by_cases heq : e = s.numEntries
      · rw [heq, Function.update_self]
      · rw [Function.update_of_ne heq] at hflag ⊢
        exact h.flag e (by omega) hflag
    · rcases hcases e₁ he₁ with rfl | ⟨he₁, hl₁⟩
      · rcases hcases e₂ he₂ with rfl | ⟨he₂, hl₂⟩
        · rfl
        · rw [Function.update_self, hold e₂ hl₂] at heq
          exact absurd heq.symm (hobj e₂ he₂)
      · rcases hcases e₂ he₂ with rfl | ⟨he₂, hl₂⟩
        · rw [Function.update_self, hold e₁ hl₁] at heq
          exact absurd heq (hobj e₁ he₁)
        · rw [hold e₁ hl₁, hold e₂ hl₂] at heq
          exact h.uniq e₁ e₂ he₁ he₂ heq
    · rcases hcases e he with rfl | ⟨he, hle⟩
      · rw [Function.update_self, Function.update_self]
      · rw [hold e hle] at hflag ⊢
        rw [Function.update_of_ne (hobj e he)]
        exact h.appended e he hflag
    · rcases hcases e he with rfl | ⟨he, hle⟩
      · rw [Function.update_self] at hflag
        contradiction
      · rw [hold e hle] at hflag ⊢
        rw [Function.update_of_ne (hobj e he)]
        exact h.marked e he hflag
    · have hne : o ≠ (s.copies k).obj := by
        rintro rfl
        refine ho s.numEntries (Function.update_self _ _ _) ?_
        rw [Function.update_self]
      rw [Function.update_of_ne hne]
      refine h.none o fun e he => ?_
      have hle := (h.own e he).1
      rw [← hold e hle ⟨(s.copies k).obj, w.wrtClk, (s.clks t').qp0, true, none⟩]
      exact ho e ((Function.update_of_ne (by omega) _ _).trans he)
  · -- the current entry is marked, and the header keeps its clock
    rename_i e₀ hcur
    obtain ⟨hlt₀, hobj₀⟩ := hc.versions.entry _ e₀ hcur
    have hfresh : (s.entries e₀).isTomb = false := by
      rw [Bool.eq_false_iff]
      exact fun hflag => hobj e₀ (h.flag e₀ hlt₀ hflag) hobj₀
    have hcases : ∀ e, Function.update s.tombstone e₀ true e = true →
        e = e₀ ∨ s.tombstone e = true := by
      intro e he
      by_cases heq : e = e₀
      · exact Or.inl heq
      · rw [Function.update_of_ne heq] at he
        exact Or.inr he
    have hkeep : ∀ e, s.tombstone e = true → Function.update s.tombstone e₀ true e = true := by
      intro e he
      by_cases heq : e = e₀
      · rw [heq, Function.update_self]
      · rw [Function.update_of_ne heq]
        exact he
    refine ⟨fun e he => ?_, fun e he hflag => hkeep e (h.flag e he hflag),
      fun e₁ e₂ he₁ he₂ heq => ?_, fun e he hflag => ?_, fun e he hflag => ?_, fun o ho => ?_⟩
    · rcases hcases e he with rfl | he
      · exact ⟨hlt₀, k, hlt, hkind, hobj₀.symm, Function.update_self _ _ _⟩
      · obtain ⟨h1, i, hi, h2, h3, h4⟩ := h.own e he
        exact ⟨h1, i, hi, h2, h3, marked_update k h4⟩
    · rcases hcases e₁ he₁ with h1 | h1
      · rcases hcases e₂ he₂ with h2 | h2
        · rw [h1, h2]
        · rw [h1, hobj₀] at heq
          exact absurd heq.symm (hobj e₂ h2)
      · rcases hcases e₂ he₂ with h2 | h2
        · rw [h2, hobj₀] at heq
          exact absurd heq (hobj e₁ h1)
        · exact h.uniq e₁ e₂ h1 h2 heq
    · rcases hcases e he with rfl | he
      · rw [hfresh] at hflag
        contradiction
      · exact h.appended e he hflag
    · rcases hcases e he with rfl | he
      · refine h.none _ fun e' he' => ?_
        rw [hobj₀]
        exact hobj e' he'
      · exact h.marked e he hflag
    · exact h.none o fun e he => ho e (hkeep e he)

theorem tombstones_checkpoint (h : Tombstones s) (hk : k < s.numCopies)
    (hkind : (s.copies k).kind ≠ .free) (t wrt : ℕ) : Tombstones (s.checkpoint t wrt k) := by
  have henq := tombstones_enq h t (x := ⟨(s.copies k).obj, wrt, (s.clks t).qp0, false,
    (s.copies k).content⟩) rfl
  -- a free record is not detached
  refine henq.frame rfl rfl rfl rfl fun j hj h1 h2 => ⟨hj, h1, rfl, ?_⟩
  refine (Function.update_of_ne ?_ _ _).trans h2
  rintro rfl
  exact hkind h1

/-! ### Free sets -/

theorem freeOnce_markTombstone (h : FreeOnce s) (hlt : ∀ e, s.tombstone e = true → e < s.numEntries)
    (t wrt k : ℕ) : FreeOnce (s.markTombstone t wrt k) := by
  unfold State.markTombstone
  dsimp only
  split
  · exact h
  split
  · exact { freeOnce_enq h hlt t ⟨(s.copies k).obj, wrt, (s.clks t).qp0, true, none⟩ with }
  · rename_i e₀ _
    exact { freeOnce_mark h e₀ with }

/-- The tombstones and the free sets. -/
structure TombSets (s : State α β) : Prop where
  tombs : Tombstones s
  sets : FreeOnce s

theorem tombSets_tvlogReclaim (h : TombSets s) (hc : Core B s t W []) {t' : ℕ} (hs : s.Synced t') :
    TombSets (s.tvlogReclaim B t') := by
  refine hc.tvlogReclaim_rule (P := TombSets) hs ?_ ?_ ?_ ?_ ?_ ?_ h
  · exact fun s₁ w k h₁ hc₁ hw hk hkind => ⟨tombstones_markTombstone h₁.tombs hc₁ hw hk hkind,
      freeOnce_markTombstone h₁.sets (fun e he => (h₁.tombs.own e he).1) t' w.wrtClk k⟩
  · exact fun s₁ w rest h₁ _ => ⟨{ h₁.tombs with }, { h₁.sets with }⟩
  · exact fun s₁ h₁ => ⟨{ h₁.tombs with }, { h₁.sets with }⟩
  · intro s₁ w k h₁ hc₁ _ hw hk _ hn
    refine ⟨tombstones_checkpoint h₁.tombs (hc₁.member (List.mem_append_right _ hw) hk).1 hn.1 _ _,
      { freeOnce_enq h₁.sets (fun e he => (h₁.tombs.own e he).1) t' ⟨(s₁.copies k).obj, w.wrtClk,
        (s₁.clks t').qp0, false, (s₁.copies k).content⟩ with }⟩
  · exact fun s₁ w rest h₁ _ _ _ _ _ => ⟨{ h₁.tombs with }, { h₁.sets with }⟩
  · exact fun s₁ h₁ => ⟨{ h₁.tombs with }, { h₁.sets with }⟩

theorem tombSets_ckptlogReclaim (h : TombSets s) (hl : CkptLogs s) (t wb : ℕ) :
    TombSets (s.ckptlogReclaim B t wb) := by
  refine ckptlogReclaim_rule (P := TombSets) (fun budget => ?_) h
  refine (ckptlogReclaimX_rule (P := fun s₁ => TombSets s₁ ∧ CkptLogs s₁) ?_ ?_ ?_ ?_ ?_ ⟨h, hl⟩).1
  · rintro s₁ e rest ⟨h₁, hl₁⟩ he
    exact ⟨⟨{ h₁.tombs with }, freeOnce_dropEntry h₁.sets h₁.tombs.uniq hl₁ he⟩,
      ckptLogs_dropEntry hl₁ he⟩
  · rintro s₁ ⟨h₁, hl₁⟩ -
    refine ⟨?_, ckptLogs_noteMinCkpt hl₁ t⟩
    unfold State.noteMinCkpt
    split
    · exact h₁
    · exact ⟨{ h₁.tombs with }, { h₁.sets with }⟩
  · rintro s₁ e rest ⟨h₁, hl₁⟩ he - - -
    exact ⟨⟨{ h₁.tombs with }, { h₁.sets with }⟩,
      ckptLogs_passEntry (s := s₁.writeback e) { hl₁ with } he⟩
  · rintro s₁ e rest ⟨h₁, hl₁⟩ he - -
    exact ⟨⟨{ h₁.tombs with }, { h₁.sets with }⟩, ckptLogs_passEntry hl₁ he⟩
  · rintro s₁ ⟨h₁, hl₁⟩
    exact ⟨⟨{ h₁.tombs with }, { h₁.sets with }⟩, { hl₁ with }⟩

theorem tombSets_destroyLogs (h : TombSets s) (B t : ℕ) : TombSets (s.destroyLogs B t) :=
  ⟨{ h.tombs with }, { freeOnce_cleanup h.sets B t maxVersion with }⟩

theorem tombSets_reapThread (h : TombSets s) (hc : Core B s 0 0 []) (hl : CkptLogs s)
    (ht : t ∈ s.tids) : TombSets (s.reapThread B t) := by
  have hlogs : TombSets (s.reapLogs B t) := by
    refine (hc.reapLogs_rule (P := fun s₁ => TombSets s₁ ∧ CkptLogs s₁ ∧ s₁.tids = s.tids)
      ?_ ?_ ?_ ?_).1
    · exact ⟨⟨{ h.tombs with }, { h.sets with }⟩, { hl with }, rfl⟩
    · rintro s₁ r ⟨h₁, hl₁, ht₁⟩
      exact ⟨⟨{ h₁.tombs with }, { h₁.sets with }⟩, { hl₁ with }, ht₁⟩
    · rintro s₁ ⟨h₁, hl₁, ht₁⟩ hc₁ hs₁
      exact ⟨tombSets_tvlogReclaim h₁ hc₁ hs₁, ckptLogs_tvlogReclaim hl₁ hs₁ (ht₁ ▸ ht),
        (quiet_tvlogReclaim s₁ t).tids.trans ht₁⟩
    · rintro s₁ ⟨h₁, hl₁, ht₁⟩ -
      exact ⟨tombSets_ckptlogReclaim h₁ hl₁ t 0, ckptLogs_ckptlogReclaim hl₁ t 0,
        (quiet_ckptlogReclaim s₁ t 0).tids.trans ht₁⟩
  have hdestroy := tombSets_destroyLogs hlogs B t
  exact reapThread_rule (P := TombSets) hlogs (fun _ => hdestroy)
    fun _ => ⟨{ hdestroy.tombs with }, { hdestroy.sets with }⟩

theorem tombSets_tvlogCommit (h : TombSets s) (hc : Core B s t W []) (hv : s.Reading B W)
    (hW : s.localClk t < W) (info : β) : TombSets (s.tvlogCommit t W info) := by
  refine (commit_induction (P := fun s₁ _ => TombSets s₁) ?_ (s.ws t) (s.commitSet t W info)
    (core_commitSet hc hv) (Function.update_self _ _ _) (hc.locks.nodup t) hW (le_max_right _ _)
    ⟨{ h.tombs with }, { h.sets with }⟩).2.2
  intro s₁ k ks hc₁ hws hnd _ _ h₁
  have hkept := recordsKept_commitCopy hc₁ hws hnd
  unfold State.commitCopy at hkept ⊢
  split
  · rw [if_pos ‹_›] at hkept
    exact ⟨h₁.tombs.frame rfl rfl rfl rfl hkept, { h₁.sets with }⟩
  · rw [if_neg ‹_›] at hkept
    rcases hkind : (s₁.copies k).kind with _ | _ | _ <;> rw [hkind] at hkept <;>
      exact ⟨h₁.tombs.frame rfl rfl rfl rfl hkept, { h₁.sets with }⟩

theorem tombSets_step {op : Op α β} (h : TombSets s) (hi : Inv B s) (hl : CkptLogs s)
    (hs : step B s op = some s') : TombSets s' := by
  cases Step.of_step hs with
  | lock t o kind =>
    exact ⟨h.tombs.frame rfl rfl rfl rfl (recordsKept_lock s t o kind), { h.sets with }⟩
  | write t k a =>
    exact ⟨h.tombs.frame rfl rfl rfl rfl (recordsKept_write s k a), { h.sets with }⟩
  | endTx t v info _ hv hgt =>
    rw [gtClock_iff] at hgt
    have hc := tombSets_tvlogCommit h (hi.core.retag t v) hv (by omega) info
    exact ⟨{ hc.tombs with }, { hc.sets with }⟩
  | tvlogReclaim t hm =>
    rcases hi.synced_or_idle hm with hsy | he
    · exact tombSets_tvlogReclaim h hi.core hsy
    · rw [he]
      exact h
  | ckptlogReclaim t wb => exact tombSets_ckptlogReclaim h hl t wb
  | reap t r done _ hz =>
    have hreap := tombSets_reapThread h hi.core hl (hi.tx.reg t (by rw [hz]; simp))
    exact ⟨{ hreap.tombs with }, { hreap.sets with }⟩
  | zombinize t =>
    have hdestroy := tombSets_destroyLogs h B t
    unfold State.zombinize
    split
    · exact ⟨{ hdestroy.tombs with }, { hdestroy.sets with }⟩
    · exact ⟨{ h.tombs with }, { h.sets with }⟩
  | threadFree t =>
    have hdestroy := tombSets_destroyLogs (s := { s with dead := Function.update s.dead t true })
      ⟨{ h.tombs with }, { h.sets with }⟩ B t
    unfold State.threadFree
    dsimp only
    split
    · exact hdestroy
    · exact ⟨{ h.tombs with }, { h.sets with }⟩
  | threadInit t => exact ⟨{ h.tombs with }, { h.sets with
      reg := fun t' o ho => List.mem_cons_of_mem _ (h.sets.reg t' o ho) }⟩
  | cleanup t clk => exact ⟨{ h.tombs with }, freeOnce_cleanup h.sets B t _⟩
  | _ => exact ⟨{ h.tombs with }, { h.sets with }⟩

/-! ### The clocks of the entries -/

/-- Before the first round nothing is checkpointed. -/
def Started (s : State α β) : Prop :=
  0 < s.qpClks.qp0 ∨ s.numEntries = 0 ∧ (s.phase = .idle ∨ ∃ clk, s.phase = .waiting clk)

theorem started_step {op : Op α β} (h : Started s) (hi : Inv B s) (hs : step B s op = some s') :
    Started s' := by
  -- the steps that leave the QP thread alone
  have hkeep : s'.qpClks.qp0 = s.qpClks.qp0 → s'.phase = s.phase →
      (s.phase.active = none → s'.numEntries = s.numEntries) → Started s' := by
    intro hqp hphase hnum
    rw [Started, hqp, hphase]
    refine h.imp_right fun ⟨h1, h2⟩ => ⟨?_, h2⟩
    rw [hnum (by rcases h2 with h2 | ⟨clk, h2⟩ <;> rw [h2] <;> rfl), h1]
  -- the steps of a round
  have hround : s'.qpClks.qp0 = s.qpClks.qp0 → s.phase ≠ .idle → (∀ clk, s.phase ≠ .waiting clk) →
      Started s' := by
    intro hqp h1 h2
    refine Or.inl ?_
    rw [hqp]
    refine h.resolve_right fun ⟨_, hp⟩ => ?_
    rcases hp with hp | ⟨clk, hp⟩
    · exact h1 hp
    · exact h2 clk hp
  cases Step.of_step hs with
  | endTx t v info =>
    have hsame := sameThreads_tvlogCommit s t v info
    refine hkeep (congrArg SysClks.qp0 hsame.qpClks) hsame.phase fun _ => ?_
    refine foldl_commitCopy_rule (P := fun s₁ => s₁.numEntries = s.numEntries) (fun s₁ k h₁ _ => ?_) rfl
    unfold State.commitCopy
    split
    · exact h₁
    · split <;> exact h₁
  | tvlogReclaim t hm =>
    have hq := quiet_tvlogReclaim (B := B) s t
    refine hkeep (by rw [hq.qpClks]) hq.phase fun hp => ?_
    rw [State.tvlogReclaim, hi.req.idle hp hm.inLive]
    rfl
  | ckptlogReclaim t wb hm =>
    have hq := quiet_ckptlogReclaim (B := B) s t wb
    refine hkeep (by rw [hq.qpClks]) hq.phase fun hp => ?_
    rw [State.ckptlogReclaim, hi.req.idle hp hm.inLive]
    rfl
  | zombinize t =>
    refine hkeep ?_ ?_ fun _ => ?_ <;> unfold State.zombinize <;> split <;> rfl
  | threadFree t =>
    refine hkeep ?_ ?_ fun _ => ?_ <;> unfold State.threadFree <;> dsimp only <;> split <;> rfl
  | detect v hp => exact h.imp_right fun h1 => ⟨h1.1, Or.inr ⟨v, rfl⟩⟩
  | detected clk hp =>
    have hlt := (hi.core.clocks.wait clk hp).2
    rw [ltClock_iff] at hlt
    refine Or.inl ?_
    show 0 < correctQpClock B clk
    omega
  | skip hp => exact hround rfl (by rw [hp]; simp) (by rw [hp]; simp)
  | startTrigger hp => exact hround rfl (by rw [hp]; simp) (by rw [hp]; simp)
  | trigger t r done hp => exact hround rfl (by rw [hp]; simp) (by rw [hp]; simp)
  | endTrigger r done hp => exact hround rfl (by rw [hp]; simp) (by rw [hp]; simp)
  | reapLock r hp => exact hround rfl (by rw [hp]; simp) (by rw [hp]; simp)
  | reap t r done hp =>
    refine hround ?_ (by rw [hp]; simp) (by rw [hp]; simp)
    exact congrArg SysClks.qp0 (reapThread_frame s B t).qpClks
  | reapRetry r done hp => exact hround rfl (by rw [hp]; simp) (by rw [hp]; simp)
  | endReap r done hp => exact hround rfl (by rw [hp]; simp) (by rw [hp]; simp)
  | startBarrier r hp => exact hround rfl (by rw [hp]; simp) (by rw [hp]; simp)
  | publish r hp =>
    refine hround ?_ (by rw [hp]; simp) (by rw [hp]; simp)
    unfold State.publish
    dsimp only
    split <;> rfl
  | _ => exact hkeep rfl rfl fun _ => rfl

/-- The clock of an entry is older than `MAX_VERSION`. -/
theorem Started.ltClock (h : Started s) (hi : Inv B s) (hl : CkptLogs s) {e : ℕ}
    (he : e < s.numEntries) : ltClock B (s.entries e).ckptSClk maxVersion := by
  have hle := hl.qp0 e he
  have hqp := hi.core.clocks.qp0
  have hmax := hi.core.clocks.max
  have hpos : 0 < s.qpClks.qp0 := h.resolve_right fun hn => by omega
  rw [ltClock_iff]
  omega

/-! ### The exact condition -/

/-- What holds in every run. -/
structure TombInv (B : ℕ) (s : State α β) : Prop where
  inv : Inv B s
  logs : CkptLogs s
  started : Started s
  sets : TombSets s

theorem tombInv_initial (org : ℕ → α) : TombInv B (initial org : State α β) where
  inv := inv_initial org
  logs := ckptLogs_initial org
  started := Or.inr ⟨rfl, Or.inl rfl⟩
  sets := ⟨⟨nofun, nofun, nofun, nofun, nofun, fun _ _ => rfl⟩, ⟨fun o ho => by
    rcases ho with ho | ⟨t, ho⟩ <;> contradiction, nofun, fun _ => List.nodup_nil, nofun,
    List.nodup_nil, nofun⟩⟩

theorem tombInv_step {op : Op α β} (h : TombInv B s) (hs : step B s op = some s') : TombInv B s' :=
  ⟨inv_step h.inv hs, ckptLogs_step h.logs h.inv hs, started_step h.started h.inv hs,
    tombSets_step h.sets h.inv h.logs hs⟩

/-- An object in a free set has the clock of its tombstone if the entry was appended as a
tombstone, and `MAX_VERSION` otherwise. -/
theorem carriesClock_of_inv (h : TombInv B s) (t : ℕ) : s.CarriesClock B t ↔ s.Appended t := by
  have hsets := h.sets.sets
  have htombs := h.sets.tombs
  constructor
  · rintro ⟨hclk, -⟩ o ho e he rfl
    by_contra hflag
    exact (hclk _ ho).1 (htombs.marked e he (Bool.eq_false_iff.mpr hflag))
  · intro happ
    have hold : ∀ o ∈ s.ckFree t, ∃ e, s.tombstone e = true ∧ (s.entries e).obj = o ∧
        s.dropped e = true ∧ s.tombstoneClk o = (s.entries e).ckptSClk ∧
        ltClock B (s.tombstoneClk o) maxVersion := by
      intro o ho
      obtain ⟨e, h1, h2, h3⟩ := hsets.tomb o (Or.inr ⟨t, ho⟩)
      have hclk := htombs.appended e h1 (happ o ho e h1 h2)
      rw [h2] at hclk
      refine ⟨e, h1, h2, h3, hclk, ?_⟩
      rw [hclk]
      exact h.started.ltClock h.inv h.logs (htombs.own e h1).1
    refine ⟨fun o ho => ?_, ?_, fun o ho => ?_⟩
    · obtain ⟨e, h1, h2, h3, h4, h5⟩ := hold o ho
      refine ⟨fun hmax => ?_, e, h1, h2, h3, h4⟩
      rw [hmax, ltClock_iff] at h5
      omega
    · show Function.update s.ckFree t _ t = []
      rw [Function.update_self, List.filter_eq_nil_iff]
      intro o ho
      obtain ⟨e, -, -, -, -, h5⟩ := hold o ho
      rw [decide_eq_true_iff, not_not]
      exact h5
    · obtain ⟨e, -, -, -, -, h5⟩ := hold o ho
      rw [(tombSets_destroyLogs h.sets B t).sets.once.count, if_pos]
      exact List.mem_append_right _ (mem_deallocs.mpr ⟨ho, h5⟩)

/-! ### The free records that a reclamation comes to -/

/-- The first loop over a write set, as far as it comes in the log: `A` holds of every copy up
to the first one that `p` rejects, and `p` accepts where the loop goes on. -/
theorem reclaimSet_reached {P : State α β → Prop} {A : ℕ → Prop} {p : ℕ → Bool} {mode : TvReq}
    {wrt : ℕ} {ks more : List ℕ}
    (hp : ∀ s k, P s → (s.copies k).kind = .free ∨
      ¬ (mode = .bestEffort ∧ gteClock B (s.wrtClkPrev k) (s.clks t).qp0) → p k = true)
    (hmark : ∀ s k, P s → k ∈ ks → A k → (s.copies k).kind = .free → P (s.markTombstone t wrt k)) :
    ∀ {s : State α β}, P s → (∀ k ∈ (ks ++ more).takeWhile p, A k) →
      P (State.reclaimSet B mode t wrt ks s).1 ∧
        ((State.reclaimSet B mode t wrt ks s).2 = false → ∀ k ∈ more.takeWhile p, A k) := by
  induction ks with
  | nil => exact fun h hA => ⟨h, fun _ => hA⟩
  | cons k ks ih =>
    intro s h hA
    have ih' : ∀ {s : State α β}, P s → (∀ k ∈ (ks ++ more).takeWhile p, A k) → _ :=
      ih fun s k' hs hk' => hmark s k' hs (List.mem_cons_of_mem _ hk')
    -- where the loop goes on, `A` holds of this copy and up to the next stop
    have hgo : (s.copies k).kind = .free ∨
        ¬ (mode = .bestEffort ∧ gteClock B (s.wrtClkPrev k) (s.clks t).qp0) →
        A k ∧ ∀ k ∈ (ks ++ more).takeWhile p, A k := by
      intro hk
      rw [List.cons_append, List.takeWhile_cons_of_pos (hp s k h hk)] at hA
      exact List.forall_mem_cons.mp hA
    unfold State.reclaimSet
    split
    · rename_i hk
      obtain ⟨h1, h2⟩ := hgo (Or.inl hk)
      exact ih' (hmark s k h List.mem_cons_self h1 hk) h2
    · split
      · exact ⟨h, nofun⟩
      · rename_i hstop
        exact ih' h (hgo (Or.inr hstop)).2
    · split
      · exact ⟨h, nofun⟩
      · rename_i hstop
        exact ih' h (hgo (Or.inr hstop)).2

theorem reclaimLoop_reached {P : State α β → Prop} {A : ℕ → Prop} {p : ℕ → Bool} {mode : TvReq}
    (hp : ∀ s k, P s → (s.copies k).kind = .free ∨
      ¬ (mode = .bestEffort ∧ gteClock B (s.wrtClkPrev k) (s.clks t).qp0) → p k = true)
    (hmark : ∀ s w k, P s → w ∈ s.tvOld t → k ∈ w.copies → A k →
      (s.copies k).kind = .free → P (s.markTombstone t w.wrtClk k))
    (hdrop : ∀ s w rest, P s → s.tvOld t = w :: rest → P (s.dropSet t w rest)) {ws : List WrtSet} :
    ∀ {s : State α β}, P s → s.tvOld t = ws →
      (∀ k ∈ (ws.flatMap (·.copies)).takeWhile p, A k) → P (State.reclaimLoop B mode t ws s) := by
  induction ws with
  | nil => exact fun h _ _ => h
  | cons w rest ih =>
    intro s h hws hA
    rw [List.flatMap_cons] at hA
    obtain ⟨⟨h1, h2⟩, hrest⟩ := reclaimSet_reached (P := fun s' => P s' ∧ s'.tvOld t = w :: rest)
      (fun s' k hs => hp s' k hs.1) (fun s' k hs hk ha hkind => by
        refine ⟨hmark s' w k hs.1 (by rw [hs.2]; exact List.mem_cons_self) hk ha hkind, ?_⟩
        rw [tvOld_markTombstone]
        exact hs.2) ⟨h, hws⟩ hA
    unfold State.reclaimLoop
    dsimp only
    split
    · exact h1
    · rename_i hstop
      exact ih (hdrop _ w rest h1 h2) (Function.update_self _ _ _) (hrest (by simpa using hstop))

/-- All tombstones were appended. -/
def AppendedOnly (s : State α β) : Prop :=
  ∀ e, s.tombstone e = true → e < s.numEntries ∧ (s.entries e).isTomb = true

theorem appendedOnly_enq (h : AppendedOnly s) (t : ℕ) (x : CkptEntry α) :
    AppendedOnly (s.ckptlogEnq t x) := by
  intro e he
  change Function.update s.tombstone s.numEntries x.isTomb e = true at he
  show e < s.numEntries + 1 ∧ (Function.update s.entries s.numEntries x e).isTomb = true
  by_cases heq : e = s.numEntries
  · subst heq
    rw [Function.update_self] at he ⊢
    exact ⟨Nat.lt_succ_self _, he⟩
  · rw [Function.update_of_ne heq] at he ⊢
    exact ⟨Nat.lt_succ_of_lt (h e he).1, (h e he).2⟩

/-- What the first loop knows about the copies `L` that it comes to. -/
structure FirstLoop (B t W : ℕ) (s₀ : State α β) (L : List ℕ) (s : State α β) : Prop where
  quiet : Quiet s₀ s
  core : Core B s t W []
  appended : AppendedOnly s
  org : ∀ k ∈ L, k < s.numCopies ∧ ((s.copies k).kind = .free → s.status k ≠ .tombstoneMarked →
    s.curAct (s.copies k).obj = none)

theorem firstLoop_markTombstone {s₀ : State α β} {L : List ℕ} {t' : ℕ} {w : WrtSet}
    (h : FirstLoop B t W s₀ L s) (hw : w ∈ s.tvOld t') (hk : k ∈ w.copies) (hL : k ∈ L)
    (hkind : (s.copies k).kind = .free) :
    FirstLoop B t W s₀ L (s.markTombstone t' w.wrtClk k) := by
  refine ⟨quiet_markTombstone h.quiet _ _, core_markTombstone h.core hw hk hkind, ?_, ?_⟩
  · unfold State.markTombstone
    dsimp only
    split
    · exact h.appended
    rename_i hst
    rw [(h.org k hL).2 hkind hst]
    exact appendedOnly_enq h.appended t' ⟨(s.copies k).obj, w.wrtClk, (s.clks t').qp0, true, none⟩
  · have hlt := (h.org k hL).1
    unfold State.markTombstone
    dsimp only
    split
    · exact h.org
    rename_i hst
    rw [(h.org k hL).2 hkind hst]
    intro j hj
    obtain ⟨h1, h2⟩ := h.org j hj
    refine ⟨h1, fun hjk hjs => ?_⟩
    change (s.copies j).kind = .free at hjk
    change Function.update s.status k .tombstoneMarked j ≠ .tombstoneMarked at hjs
    have hne : j ≠ k := by
      rintro rfl
      exact hjs (Function.update_self _ _ _)
    rw [Function.update_of_ne hne] at hjs
    -- two free records are of two objects
    refine (Function.update_of_ne ?_ _ _).trans (h2 hjk hjs)
    intro heq
    exact hne (h.core.free_unique h1 hlt hjk hkind heq)

theorem appendedOnly_tvlogReclaim (h : AppendedOnly s) (hc : Core B s t W []) {t' : ℕ}
    (horg : (s.req t').tvlog ≠ .none → s.OrgCurrent B t' (s.req t').tvlog) :
    AppendedOnly (s.tvlogReclaim B t') := by
  have hx : ∀ mode, s.OrgCurrent B t' mode → AppendedOnly (s.tvlogReclaimX B mode t') := by
    intro mode horg
    have h1 : FirstLoop B t W s (s.recordsReached B t' mode)
        (State.reclaimLoop B mode t' (s.tvOld t') s) := by
      refine reclaimLoop_reached (A := fun k => k ∈ s.recordsReached B t' mode)
        (p := fun k => (s.copies k).kind = .free ∨
          ¬ (mode = .bestEffort ∧ gteClock B (s.wrtClkPrev k) (s.clks t').qp0)) ?_ ?_ ?_
        ⟨Quiet.refl s, hc, h, fun k hk => ⟨?_, horg k hk⟩⟩ rfl fun k hk => hk
      · intro s₁ k h₁ hk
        rw [h₁.quiet.copies, h₁.quiet.wrtClkPrev, (h₁.quiet.clks t').1] at hk
        exact decide_eq_true hk
      · exact fun s₁ w k h₁ hw hk hL hkind => firstLoop_markTombstone h₁ hw hk hL hkind
      · exact fun s₁ w rest h₁ hw => ⟨{ h₁.quiet with }, core_dropSet h₁.core hw, h₁.appended, h₁.org⟩
      · obtain ⟨w, hw, hk⟩ := List.mem_flatMap.mp ((List.takeWhile_sublist _).subset hk)
        exact (hc.member (List.mem_append_left _ hw) hk).1
    refine ckptLoop_rule (P := AppendedOnly) ?_ ?_ h1.appended rfl
    · exact fun s₁ w rest k _ h₁ _ _ _ _ => appendedOnly_enq h₁ t' ⟨(s₁.copies k).obj, w.wrtClk,
        (s₁.clks t').qp0, false, (s₁.copies k).content⟩
    · exact fun s₁ w rest h₁ _ _ _ => h₁
  unfold State.tvlogReclaim
  split
  · exact h
  · rename_i hn
    exact hx _ (horg hn)

theorem appendedOnly_ckptlogReclaim (h : AppendedOnly s) (t wb : ℕ) :
    AppendedOnly (s.ckptlogReclaim B t wb) := by
  refine ckptlogReclaim_rule (P := AppendedOnly) (fun budget => ?_) h
  refine ckptlogReclaimX_rule (P := AppendedOnly) ?_ ?_ ?_ ?_ ?_ h
  · exact fun s₁ e rest h₁ _ => h₁
  · intro s₁ h₁ _
    unfold State.noteMinCkpt
    split <;> exact h₁
  · exact fun s₁ e rest h₁ _ _ _ _ => h₁
  · exact fun s₁ e rest h₁ _ _ _ => h₁
  · exact fun s₁ h₁ => h₁

/-- A checkpoint does not stop in the first loop. -/
theorem recordsReached_ckpt (s : State α β) (B t : ℕ) :
    s.recordsReached B t .ckpt = (s.tvOld t).flatMap (·.copies) := by
  rw [State.recordsReached, List.takeWhile_eq_self_iff]
  intro k _
  exact decide_eq_true (Or.inr fun hn => absurd hn.1 nofun)

theorem appendedOnly_reapThread (h : AppendedOnly s) (hc : Core B s 0 0 [])
    (horg : s.OrgCurrent B t .ckpt) : AppendedOnly (s.reapThread B t) := by
  have hlogs : AppendedOnly (s.reapLogs B t) := by
    refine reapLogs_phases (P := fun s₁ => AppendedOnly s₁ ∧ Core B s₁ 0 0 [] ∧
        s₁.OrgCurrent B t .ckpt) (Q := AppendedOnly) (R := AppendedOnly) ⟨h, ?_, ?_⟩ ?_ ?_ ?_ ?_ ?_ ?_
    · exact hc.congr {} fun _ => id
    · rw [State.OrgCurrent, recordsReached_ckpt] at horg ⊢
      exact horg
    · rintro s₁ r ⟨h₁, hc₁, horg₁⟩
      exact ⟨h₁, hc₁.congr {} fun _ => id, horg₁⟩
    · exact fun s₁ h₁ _ => h₁.1
    · rintro s₁ ⟨h₁, hc₁, horg₁⟩ hreq
      refine appendedOnly_tvlogReclaim h₁ hc₁ fun _ => ?_
      rw [hreq]
      exact horg₁
    · exact fun s₁ r h₁ => h₁
    · exact fun s₁ h₁ _ => h₁
    · exact fun s₁ h₁ _ => appendedOnly_ckptlogReclaim h₁ t 0
  exact reapThread_rule (P := AppendedOnly) hlogs (fun _ => hlogs) fun _ => hlogs

theorem appendedOnly_step {op : Op α β} (h : AppendedOnly s) (hi : Inv B s)
    (hok : AppendsTombstones B s op) (hs : step B s op = some s') : AppendedOnly s' := by
  cases Step.of_step hs with
  | endTx t v info =>
    refine foldl_commitCopy_rule (P := AppendedOnly) (fun s₁ k h₁ _ => ?_) h
    unfold State.commitCopy
    split
    · exact h₁
    · split <;> exact h₁
  | tvlogReclaim t => exact appendedOnly_tvlogReclaim h hi.core hok
  | ckptlogReclaim t wb => exact appendedOnly_ckptlogReclaim h t wb
  | reap t => exact appendedOnly_reapThread h hi.core hok
  | zombinize t =>
    unfold State.zombinize
    split <;> exact h
  | threadFree t =>
    unfold State.threadFree
    dsimp only
    split <;> exact h
  | publish r =>
    unfold State.publish
    exact h
  | _ => exact h

/-- In every state of every run, the objects in the free set of a thread carry the clocks of
their tombstones, and `ckptlog_destroy` empties the free set and deallocates each of them
exactly once, if and only if their entries were appended as tombstones.  This is so in
every run in which the current master of an object is the original one when
`tvlog_reclaim_x` processes its free record. -/
theorem carriesClock_iff {org : ℕ → α} (hr : Reachable B org Run.any s) (t : ℕ) :
    (s.CarriesClock B t ↔ s.Appended t) ∧
      (Reachable B org (AppendsTombstones B) s → s.CarriesClock B t) := by
  have h : TombInv B s := by
    refine Run.Reach.invariant (I := TombInv B) ?_ (fun _ _ _ h _ hs => tombInv_step h hs) hr
    rintro s rfl
    exact tombInv_initial org
  refine ⟨carriesClock_of_inv h t, fun hok => (carriesClock_of_inv h t).mpr ?_⟩
  have happ : Inv B s ∧ AppendedOnly s := by
    refine Run.Reach.invariant (I := fun s => Inv B s ∧ AppendedOnly s) ?_ ?_ hok
    · rintro s rfl
      exact ⟨inv_initial org, nofun⟩
    · rintro s op s' ⟨hi, ha⟩ hok hs
      exact ⟨inv_step hi hs, appendedOnly_step ha hi hok hs⟩
  exact fun o _ e he _ => (happ.2 e he).2

/-- The thread 1 frees the object 5, which was never written.  Its tombstone is appended, and
passed by the head three rounds later. -/
theorem carriesClock_iff_unwritten : ∃ s : State ℕ ℕ,
    Reachable 0 (fun _ => 0) (AppendsTombstones 0) s ∧ s.ckFree 1 = [5] ∧ s.CarriesClock 0 1 := by
  have hd : (Run.exec (step 0) (AppendsTombstones 0) (initial fun _ => 0 : State ℕ ℕ)
      ([.threadInit 0, .threadInit 1, .begin 1 10, .lock 1 5 .const, .free 1 5, .endTx 1 20 7] ++
        roundOfTwo 40 ⟨.bestEffort, .none⟩ ++ roundOfTwo 50 ⟨.bestEffort, .none⟩ ++
        roundOfTwo 60 ⟨.none, .writebackAll⟩ ++ roundOfTwo 70 ⟨.none, .writebackAll⟩ ++
        roundOfTwo 80 ⟨.none, .writebackAll⟩)).map (fun s => decide (s.ckFree 1 = [5])) =
      some true := by
    decide +kernel
  obtain ⟨s, hs, hp⟩ := Option.map_eq_some_iff.mp hd
  have hr : Reachable 0 (fun _ => 0) (AppendsTombstones 0) s := .of_exec (.init rfl) hs
  exact ⟨s, hr, of_decide_eq_true hp,
    (carriesClock_iff (hr.mono fun _ _ _ => trivial) 1).2 hr⟩

/-- The thread 0 writes the object 5, and the thread 1 frees it after the version was
checkpointed.  The entry of the thread 0 is marked, and when the head has passed it, the
object is in the free set with the clock `MAX_VERSION`: `ckptlog_destroy` leaves it there. -/
theorem marked_header_leaks : ∃ s : State ℕ ℕ, Reachable 0 (fun _ => 0) Run.any s ∧
    s.ckFree 0 = [5] ∧ s.tombstoneClk 5 = maxVersion ∧ (s.destroyLogs 0 0).ckFree 0 = [5] ∧
      5 ∉ (s.destroyLogs 0 0).freed ∧ ¬ s.CarriesClock 0 0 := by
  have hd : (Run.exec (step 0) Run.any (initial fun _ => 0 : State ℕ ℕ)
      ([.threadInit 0, .threadInit 1, .begin 0 10, .lock 0 5 .copy, .endTx 0 20 7] ++
        roundOfTwo 40 ⟨.ckpt, .none⟩ ++
        [.begin 1 50, .lock 1 5 .const, .free 1 5, .endTx 1 60 8] ++
        roundOfTwo 70 ⟨.bestEffort, .none⟩ ++ roundOfTwo 80 ⟨.bestEffort, .none⟩ ++
        roundOfTwo 90 ⟨.none, .writebackAll⟩ ++ roundOfTwo 100 ⟨.none, .writebackAll⟩)).map
        (fun s => decide (s.ckFree 0 = [5] ∧ s.tombstoneClk 5 = maxVersion ∧
          (s.destroyLogs 0 0).ckFree 0 = [5] ∧ 5 ∉ (s.destroyLogs 0 0).freed)) = some true := by
    decide +kernel
  obtain ⟨s, hs, hp⟩ := Option.map_eq_some_iff.mp hd
  obtain ⟨h1, h2, h3, h4⟩ := of_decide_eq_true hp
  refine ⟨s, .of_exec (.init rfl) hs, h1, h2, h3, h4, fun hc => ?_⟩
  exact (hc.1 5 (by rw [h1]; exact List.mem_singleton_self 5)).1 h2

end TimeStone.System
