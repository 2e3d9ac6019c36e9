/-
The isolation level `TS_LINEARIZABILITY`, with checkpoints and reclamation
(`isolation.h`, `timestone.c`).

Here the transactions of the system carry read sets.  What `validate_read_set` compares
are addresses, and the log puts new copies where copies were that it has given back, so the
copies have the addresses that the sizes of the locked objects give them (`Places`).
`ts_free` is left out; a copy of a freed object is not a version.

A transaction that read something else than the newest copy fails.  One that read the
newest copy validates when `p_copy` still has the address of that copy, and one that read
the current master when `p_copy` is still `NULL`.  In the second case nothing was
committed in between: a version that was committed after the transaction began is above
its clock, and is not detached while it runs.  In the first case the address has not gone
to a newer copy as long as the QP thread waits for the transaction (`KeptCopy`).  It does not
wait for one that began within the ordo boundary of the clock that it has read: then the
space of the copy may be given back, and when the log comes round again a new version of the
object may be put at the same address (`stale_read_of_reused_copy`).

* `QpWaits` — the condition: the copies fit the logs, and the QP thread waits for every
  transaction that runs when it reads its clock;
* `reads_newest_of_qpWaits` — then the transactions are serializable in the order in which
  they ended.
-/
import TimeStone.Isolation
import TimeStone.Lib.Serial
import TimeStone.System.Kept

namespace TimeStone.System

/-- A pointer to an object: the copy of `o` at the address `a` of a transient version log,
an entry of a checkpoint log or an original master.  A `ts_deref` that runs into log space
that was given back gets a `lost` one. -/
inductive Ptr
  | copy (o : ℕ) (a : ℕ × ℕ)
  | entry (e : ℕ)
  | master (o : ℕ)
  | lost
  deriving DecidableEq

/-- What a `ts_deref` of the object `obj` has done: the entry of the read set, the copy
that was the newest, and the version that was returned. -/
structure Read where
  entry : ReadEntry ℕ Ptr
  obj : ℕ
  latest : Option ℕ
  version : Option ℕ

/-- The system with read sets: the places of the copies, the objects with a volatile
header, and the isolation info of the threads.  What the transactions have read, and the
committed transactions with the last one first, are histories.  A committed transaction is
named by its write clock: two versions of one object have different ones. -/
structure Lin (α β : Type*) where
  sys : State α β
  places : Places
  vhdr : ℕ → Bool
  isolation : ℕ → IsolationInfo ℕ Ptr
  reads : ℕ → List Read
  committed : List (Serial.Txn ℕ ℕ)

/-- The actions: a lock of an object of `size` bytes, and those of the system. -/
inductive LinOp (α β : Type*)
  | lock (t o size : ℕ)
  | sys (op : Op α β)

/-- `_ts_try_lock_const` locks with size zero. -/
def lockKind (size : ℕ) : Kind := if size = 0 then .const else .copy

variable {α β : Type*}

/-- Objects with the contents `org`, no threads. -/
def Lin.initial (org : ℕ → α) : Lin α β where
  sys := System.initial org
  places := .initial
  vhdr := fun _ => false
  isolation := fun _ => .reset .linearizability
  reads := fun _ => []
  committed := []

namespace Lin

variable (s : Lin α β)

/-- `p_copy` of the volatile header of `o`. -/
def pCopy (o : ℕ) : Option Ptr := (s.sys.pCopy o).map fun k => .copy o (s.places.addr k)

/-- `get_act_vhdr`. -/
def getActVhdr : Ptr → Option ℕ
  | .copy o _ => if s.vhdr o then some o else none
  | .entry e => if s.vhdr (s.sys.entries e).obj then some (s.sys.entries e).obj else none
  | .master o => if s.vhdr o then some o else none
  | .lost => none

/-- What `ts_deref` returns. -/
def derefLoc (B t o : ℕ) : Option Loc :=
  if s.vhdr o then s.sys.deref B t o else some (.master o)

/-- A location as a pointer to the object `o`. -/
def ptr (o : ℕ) : Option Loc → Ptr
  | some (.copy k) => .copy o (s.places.addr k)
  | some (.entry e) => .entry e
  | some (.master o) => .master o
  | none => .lost

/-- `ts_deref`. -/
def derefRead (B t o : ℕ) : Read where
  entry :=
    if s.vhdr o then ⟨some o, s.pCopy o, s.ptr o (s.derefLoc B t o)⟩
    else ⟨none, none, .master o⟩
  obj := o
  latest := if s.vhdr o then s.sys.pCopy o else none
  version := (s.derefLoc B t o).bind s.sys.version

/-- The transaction of `t`, with the write clock `v`. -/
def txn (t v : ℕ) : Serial.Txn ℕ ℕ :=
  ⟨v, (s.reads t).map fun r => (r.obj, r.version), s.sys.written (s.sys.ws t)⟩

/-- One step.  `ts_begin` waits until the log is below its high mark. -/
def step (B : ℕ) : LinOp α β → Option (Lin α β)
  | .lock t o size =>
    if (s.isolation t).staleReadOccurred = false then
      (System.step B s.sys (.lock t o (lockKind size))).map fun sys =>
        { s with
          sys := sys
          places := s.places.lock s.sys t size
          vhdr := Function.update s.vhdr o true }
    else none
  | .sys (.begin t v) =>
    if s.places.used s.sys t < tvlogHighMark then
      (System.step B s.sys (.begin t v)).map fun sys =>
        { s with
          sys := sys
          isolation := Function.update s.isolation t (.reset .linearizability)
          reads := Function.update s.reads t [] }
    else none
  | .sys (.deref t o) =>
    (System.step B s.sys (.deref t o)).map fun sys =>
      { s with
        sys := sys
        isolation := Function.update s.isolation t
          ((s.isolation t).readSetAdd (s.derefRead B t o).entry)
        reads := Function.update s.reads t (s.reads t ++ [s.derefRead B t o]) }
  | .sys (.endTx t v info) =>
    if (s.isolation t).validateReadSet s.pCopy s.getActVhdr then
      (System.step B s.sys (.endTx t v info)).map fun sys =>
        { s with sys := sys, committed := s.txn t v :: s.committed }
    else (System.step B s.sys (.abort t)).map fun sys =>
      { s with sys := sys, places := s.places.abort s.sys t }
  | .sys (.abort t) =>
    (System.step B s.sys (.abort t)).map fun sys =>
      { s with sys := sys, places := s.places.abort s.sys t }
  | .sys (.lock _ _ _) | .sys (.free _ _) => none
  | .sys op => (System.step B s.sys op).map fun sys => { s with sys := sys }

end Lin

/-- The condition on a run.  The copy of a lock fits the log of its thread, and when the QP
thread reads its clock every running transaction began before the ordo boundary of it. -/
def QpWaits (B : ℕ) (s : Lin α β) : LinOp α β → Prop
  | .lock t _ size => s.places.Fits s.sys t size
  | .sys (.detect v) => ∀ t ∈ s.sys.tids, s.sys.InTx t → ¬ gteClock B (s.sys.localClk t) v
  | .sys _ => True

instance (B : ℕ) (s : Lin α β) (op : LinOp α β) : Decidable (QpWaits B s op) := by
  unfold QpWaits
  split <;> infer_instance

/-- The states of runs from the contents `org` that keep to the condition `ok`. -/
abbrev LinReachable (B : ℕ) (org : ℕ → α) (ok : Lin α β → LinOp α β → Prop) :
    Lin α β → Prop :=
  Run.Reach (· = Lin.initial org) (fun s => s.step B) ok

variable {org : ℕ → α} {B t W k : ℕ} {s s' : Lin α β} {r : Read}

/-- What a running transaction knows about an object that it has read. -/
structure ReadOk (B : ℕ) (s : Lin α β) (t : ℕ) (r : Read) : Prop where
  vhdr : r.entry.actVhdr = some r.obj ∨
    r.entry.actVhdr = none ∧ r.latest = none ∧ r.entry.copy = .master r.obj
  latest : r.entry.latest = r.latest.map fun k => .copy r.obj (s.places.addr k)
  master : r.latest = none → r.version = s.sys.newest r.obj ∨
    ∃ j ∈ (s.sys.hist r.obj).head?, s.sys.localClk t ≤ (s.sys.copies j).wrtClk + B
  copy : ∀ k ∈ r.latest, k ∈ s.sys.hist r.obj ∧ r.version = some (s.sys.copies k).wrtClk ∧
    KeptCopy B s.sys s.places t k

/-- What holds of a transaction. -/
structure LinTx (B : ℕ) (s : Lin α β) (t : ℕ) : Prop where
  level : (s.isolation t).level = .linearizability
  clk : s.sys.localClk t ≤ s.sys.lastClk
  readSet : (s.isolation t).staleReadOccured = false →
    (s.isolation t).readSet = (s.reads t).map Read.entry
  reads : (s.isolation t).staleReadOccured = false → ∀ r ∈ s.reads t, ReadOk B s t r

/-- The invariant of the system below. -/
structure SysInv (B : ℕ) (org : ℕ → α) (s : State α β) : Prop where
  inv : Inv B s
  contents : Contents org s
  sets : Sets B s
  logged : Logged s
  noFree : NoFree s
  triggered : Triggered s

/-- The invariant. -/
structure LinInv (B : ℕ) (org : ℕ → α) (s : Lin α β) : Prop where
  sys : SysInv B org s.sys
  placed : Placed s.sys s.places
  vhdr : ∀ o, s.vhdr o = false → s.sys.hist o = []
  held : ∀ t, ∀ k ∈ s.sys.ws t, s.vhdr (s.sys.copies k).obj = true
  tx : ∀ t, s.sys.InTx t → LinTx B s t
  serial : Serial.IsSerial s.committed
  last : ∀ o, Serial.lastWriter o s.committed = s.sys.newest o

/-! ### Validation -/

theorem SysInv.step {org : ℕ → α} {s s' : State α β} {op : Op α β} (h : SysInv B org s)
    (hop : ∀ t o, op ≠ .free t o) (hs : step B s op = some s') : SysInv B org s' where
  inv := inv_step h.inv hs
  contents := contents_step h.contents h.inv hs
  sets := sets_step h.sets h.inv hs
  logged := logged_step h.logged h.inv hs
  noFree := noFree_step h.noFree h.inv hop hs
  triggered := triggered_step h.triggered h.inv hs

/-- A validated entry shows the version that is the newest now. -/
theorem ReadOk.newest (h : ReadOk B s t r) (hi : Inv B s.sys) (hlog : Logged s.sys)
    (hp : Placed s.sys s.places) (ht : s.sys.InTx t)
    (hv : ∀ o, s.vhdr o = false → s.sys.hist o = [])
    (hval : IsolationInfo.validateEntry s.pCopy s.getActVhdr r.entry = true) :
    r.version = s.sys.newest r.obj := by
  have hc := hi.core
  cases hl : r.latest with
  | none =>
    -- `p_copy` is `NULL` again
    have hp : s.sys.pCopy r.obj = none := by
      have hmap : s.pCopy r.obj = none → s.sys.pCopy r.obj = none := Option.map_eq_none_iff.mp
      rw [IsolationInfo.validateEntry] at hval
      rcases h.vhdr with ha | ⟨ha, -, hm⟩
      · rw [ha, h.latest, hl] at hval
        exact hmap (of_decide_eq_true hval)
      · rw [ha, hm] at hval
        by_cases hvh : s.vhdr r.obj = true
        · simp only [Lin.getActVhdr, hvh, if_true] at hval
          exact hmap (of_decide_eq_true hval)
        · exact hc.chains.nil _ (hv _ (by simpa using hvh))
    rcases h.master hl with hm | ⟨j, hj, hclk⟩
    · exact hm
    · -- a version that was committed meanwhile is not detached yet
      rcases (hc.chains.top _ j hj).2 with ⟨htop, -⟩ | ⟨-, hd⟩
      · rw [hp] at htop
        cases htop
      · have h1 := (hc.versions.detached _ j (List.mem_of_mem_head? hj) hd).1
        have h2 := hi.tx.qp0 t ht
        rw [ltClock_iff] at h1
        omega
  | some k =>
    obtain ⟨hk, hver, hkept⟩ := h.copy k hl
    have ha : r.entry.actVhdr = some r.obj := by
      rcases h.vhdr with ha | ⟨-, hn, -⟩
      · exact ha
      · rw [hl] at hn
        cases hn
    rw [IsolationInfo.validateEntry, ha, h.latest, hl] at hval
    obtain ⟨j, hj, haddr⟩ := Option.map_eq_some_iff.mp (of_decide_eq_true hval)
    have hhead := (hc.chains.head_of_pCopy hj).1
    have haddr := (Ptr.copy.inj haddr).2
    -- the newest copy is in the same log at the same address
    obtain ⟨u, w, hw, hjw⟩ := hlog.top r.obj j hj
    have hin : j ∈ s.sys.inLog u :=
      List.mem_append_left _ (mem_logged.mpr ⟨w, List.mem_append_right _ hw, hjw⟩)
    have hu : s.places.log k = u := (Prod.mk.inj haddr).1.symm.trans (hp.log u j hin)
    have hjk : j = k := hkept.own j (hu ▸ hin) haddr
    rw [hver, State.newest, hhead, hjk]
    rfl

/-! ### Steps that lock and commit nothing -/

theorem ReadOk.frame (h : ReadOk B s t r) (hf : Frame s.sys s'.sys)
    (ha : s'.places.addr = s.places.addr) (hl : s'.sys.localClk t = s.sys.localClk t)
    (hk : ∀ k, KeptCopy B s.sys s.places t k → KeptCopy B s'.sys s'.places t k) :
    ReadOk B s' t r where
  vhdr := h.vhdr
  latest := by rw [ha]; exact h.latest
  master := by
    intro hn
    rw [hf.newest, hf.hist, hl]
    refine (h.master hn).imp_right ?_
    rintro ⟨j, hj, hclk⟩
    exact ⟨j, hj, by rw [hf.wrtClk]; exact hclk⟩
  copy := by
    intro k hkr
    obtain ⟨h1, h2, h3⟩ := h.copy k hkr
    rw [hf.hist, hf.wrtClk]
    exact ⟨h1, h2, hk k h3⟩

theorem LinTx.frame (h : LinTx B s t) (hf : Frame s.sys s'.sys)
    (ha : s'.places.addr = s.places.addr) (hiso : s'.isolation t = s.isolation t)
    (hr : s'.reads t = s.reads t) (hl : s'.sys.localClk t = s.sys.localClk t)
    (hk : ∀ k, KeptCopy B s.sys s.places t k → KeptCopy B s'.sys s'.places t k) : LinTx B s' t where
  level := hiso ▸ h.level
  clk := by
    rw [hl]
    exact le_trans h.clk hf.lastClk
  readSet := by
    rw [hiso, hr]
    exact h.readSet
  reads := by
    rw [hiso, hr]
    exact fun hs r hm => (h.reads hs r hm).frame hf ha hl hk

/-- Steps that lock and commit nothing keep the invariant when the copies and the
transactions that they leave are in order. -/
theorem LinInv.frame (h : LinInv B org s) (hsys : SysInv B org s'.sys)
    (hf : Frame s.sys s'.sys) (hp : Placed s'.sys s'.places) (hv : s'.vhdr = s.vhdr)
    (hc : s'.committed = s.committed) (htx : ∀ t, s'.sys.InTx t → LinTx B s' t) :
    LinInv B org s' where
  sys := hsys
  placed := hp
  vhdr := by
    rw [hv, hf.hist]
    exact h.vhdr
  held := by
    intro t k hk
    rw [hv, hf.obj]
    exact h.held t k (hf.ws_subset t hk)
  tx := htx
  serial := hc ▸ h.serial
  last := fun o => by
    rw [hc, hf.newest]
    exact h.last o

/-- Steps that do not touch the read sets either, except `ts_abort`. -/
theorem LinInv.plain {sys : State α β} {op : Op α β} (h : LinInv B org s)
    (hok : QpWaits B s (.sys op)) (hs : step B s.sys op = some sys) (hop : op.Plain)
    (ha : ∀ t, op ≠ .abort t) : LinInv B org { s with sys := sys } := by
  have hf := frame_step hop hs
  have hno : ∀ t o, op ≠ .free t o := by
    rintro t o rfl
    exact hop
  refine h.frame (h.sys.step hno hs) hf.toFrame (h.placed.frame hf.logged (ws_step hop ha hs)) rfl
    rfl fun t ht => ?_
  have htx := (hf.tx t ht).1
  refine (h.tx t htx).frame hf.toFrame rfl rfl rfl (hf.tx t ht).2 fun k hk =>
    hk.step h.sys.inv h.sys.sets h.sys.triggered ht hop ?_ hs
  rintro v rfl
  exact hok t (h.sys.inv.tx.mem_tids (Or.inl (h.sys.inv.tx.live t htx))) htx

/-- `ts_abort`. -/
theorem LinInv.abort {sys : State α β} (h : LinInv B org s)
    (hs : step B s.sys (.abort t) = some sys) :
    LinInv B org { s with sys := sys, places := s.places.abort s.sys t } := by
  have hplain : (Op.abort t : Op α β).Plain := trivial
  have hf := frame_step hplain hs
  have hkeep : ∀ t', sys.InTx t' → ∀ k,
      KeptCopy B s.sys s.places t' k → KeptCopy B sys s.places t' k :=
    fun t' ht' k hk => hk.step h.sys.inv h.sys.sets h.sys.triggered ht' hplain (by simp) hs
  obtain ⟨hlog, haddr⟩ := abort_log s.places s.sys t
  have hplaced : Placed sys (s.places.abort s.sys t) := by
    cases Step.of_step hs
    exact h.placed.abort (fun _ => rfl) rfl
  exact h.frame (h.sys.step (by simp) hs) hf.toFrame hplaced rfl rfl fun t' ht' =>
    (h.tx t' (hf.tx t' ht').1).frame hf.toFrame haddr rfl rfl (hf.tx t' ht').2 fun k hk =>
      (hkeep t' ht' k hk).places hlog haddr

theorem LinInv.begin {sys : State α β} {v : ℕ} (h : LinInv B org s)
    (hs : step B s.sys (.begin t v) = some sys) : LinInv B org { s with
      sys := sys
      isolation := Function.update s.isolation t (.reset .linearizability)
      reads := Function.update s.reads t [] } := by
  have hsys := h.sys.step (by simp) hs
  cases Step.of_step hs with
  | begin _ _ hl hn hv =>
    have hf : Frame s.sys (s.sys.start t v) :=
      { (TxFrame.refl s.sys).toFrame with lastClk := le_max_left _ _ }
    refine h.frame hsys hf (h.placed.frame (fun _ => List.Sublist.refl _) rfl) rfl rfl
      fun t' ht' => ?_
    by_cases he : t' = t
    · subst he
      refine ⟨?_, ?_, fun _ => ?_, fun _ r hr => ?_⟩
      · show (Function.update s.isolation t' _ t').level = _
        rw [Function.update_self]
        rfl
      · show Function.update s.sys.localClk t' v t' ≤ max _ v
        rw [Function.update_self]
        exact le_max_right _ _
      · show (Function.update s.isolation t' _ t').readSet =
          (Function.update s.reads t' [] t').map Read.entry
        rw [Function.update_self, Function.update_self]
        rfl
      · change r ∈ Function.update s.reads t' [] t' at hr
        rw [Function.update_self] at hr
        cases hr
    · have htx : s.sys.InTx t' := by
        change Function.update s.sys.runCnt t _ t' % 2 = 1 at ht'
        rw [Function.update_of_ne he] at ht'
        exact ht'
      refine (h.tx t' htx).frame hf ?_ ?_ ?_ ?_ fun k hk => hk.begin he
      · rfl
      · exact Function.update_of_ne he _ _
      · exact Function.update_of_ne he _ _
      · exact Function.update_of_ne he _ _

/-! ### Dereferences -/

theorem LinInv.curAct_of_vhdr (h : LinInv B org s) {o : ℕ} (hv : s.vhdr o = false) :
    s.sys.curAct o = none := by
  cases hcur : s.sys.curAct o with
  | none => rfl
  | some e =>
    obtain ⟨he, hobj⟩ := h.sys.inv.core.versions.entry o e hcur
    rcases h.sys.contents.entry e he with ht | ⟨j, hj, -⟩
    · rw [h.sys.noFree.tomb e he] at ht
      cases ht
    · rw [hobj, h.vhdr o hv] at hj
      cases hj

/-- A dereference that is not stale returns the newest version. -/
theorem LinInv.readOk_derefRead (h : LinInv B org s) {o : ℕ}
    (hst : ¬ (s.derefRead B t o).entry.Stale) : ReadOk B s t (s.derefRead B t o) := by
  have hc := h.sys.inv.core
  cases hv : s.vhdr o with
  | false =>
    -- no volatile header: the original master is all there is
    have hnil := hc.chains.nil o (h.vhdr o hv)
    have hloc : s.sys.curLoc o = .master o := by rw [State.curLoc, h.curAct_of_vhdr hv]
    have hnew := h.sys.noFree.version_curLoc h.sys.contents hc hnil
    have hread : s.derefRead B t o =
        ⟨⟨none, none, .master o⟩, o, none, s.sys.version (.master o)⟩ := by
      simp [Lin.derefRead, Lin.derefLoc, hv]
    rw [hread]
    rw [hloc] at hnew
    exact ⟨Or.inr ⟨rfl, rfl, rfl⟩, rfl, fun _ => Or.inl hnew, fun k hk => by cases hk⟩
  | true =>
    have hread : s.derefRead B t o = ⟨⟨some o, s.pCopy o, s.ptr o (s.sys.deref B t o)⟩, o,
        s.sys.pCopy o, (s.sys.deref B t o).bind s.sys.version⟩ := by
      simp [Lin.derefRead, Lin.derefLoc, hv]
    rw [hread] at hst ⊢
    refine ⟨Or.inl rfl, rfl, fun hl => Or.inl ?_, fun k hk => ?_⟩
    · change s.sys.pCopy o = none at hl
      show (s.sys.deref B t o).bind s.sys.version = s.sys.newest o
      rw [State.deref, hl]
      exact h.sys.noFree.version_curLoc h.sys.contents hc hl
    · change s.sys.pCopy o = some k at hk
      have hhead := (hc.chains.head_of_pCopy hk).1
      have hkmem := List.mem_of_mem_head? hhead
      obtain ⟨t', w, hw, hkw⟩ := h.sys.logged.top o k hk
      have hin : k ∈ s.sys.inLog t' :=
        List.mem_append_left _ (mem_logged.mpr ⟨w, List.mem_append_right _ hw, hkw⟩)
      -- what was returned has the address of the newest copy
      have hptr : s.ptr o (s.sys.deref B t o) = .copy o (s.places.addr k) := by
        by_contra hne
        refine hst ⟨?_, fun heq => hne ?_⟩
        · show s.pCopy o ≠ none
          rw [Lin.pCopy, hk]
          exact Option.some_ne_none _
        · change s.pCopy o = some (s.ptr o (s.sys.deref B t o)) at heq
          rw [Lin.pCopy, hk, Option.map_some, Option.some_inj] at heq
          exact heq.symm
      have hderef : s.sys.deref B t o = some (.copy k) := by
        have hwalk : s.sys.deref B t o = s.sys.walk B t o s.sys.numCopies k := by
          rw [State.deref, hk]
        cases hd : s.sys.deref B t o with
        | none =>
          rw [hd] at hptr
          cases hptr
        | some l =>
          rw [hd] at hptr
          cases l with
          | copy j =>
            obtain ⟨hj, hrec⟩ := hc.chains.walk_copy hkmem (hwalk.symm.trans hd)
            obtain ⟨u, hlog⟩ := h.sys.logged.kept o j hj hrec
            have hju : j ∈ s.sys.inLog u := List.mem_append_left _ (mem_logged.mpr hlog)
            rw [h.placed.addr_inj hju hin (Ptr.copy.inj hptr).2]
          | entry e => cases hptr
          | master o' => cases hptr
      refine ⟨hkmem, ?_, .of_pCopy h.placed h.sys.logged h.sys.sets hk⟩
      show (s.sys.deref B t o).bind s.sys.version = _
      rw [hderef]
      rfl

theorem LinInv.deref {sys : State α β} {o : ℕ} (h : LinInv B org s)
    (hs : step B s.sys (.deref t o) = some sys) : LinInv B org { s with
      sys := sys
      isolation := Function.update s.isolation t
        ((s.isolation t).readSetAdd (s.derefRead B t o).entry)
      reads := Function.update s.reads t (s.reads t ++ [s.derefRead B t o]) } := by
  have hplain : (Op.deref t o : Op α β).Plain := trivial
  have hf := frame_step hplain hs
  refine h.frame (h.sys.step (by simp) hs) hf.toFrame
    (h.placed.frame hf.logged (ws_step hplain (by simp) hs)) rfl rfl fun t' ht' => ?_
  have hkeep : ∀ k, KeptCopy B s.sys s.places t' k → KeptCopy B sys s.places t' k := fun k hk =>
    hk.step h.sys.inv h.sys.sets h.sys.triggered ht' hplain (by simp) hs
  obtain ⟨htx, hl⟩ := hf.tx t' ht'
  have htx := h.tx t' htx
  by_cases he : t' = t
  · subst he
    refine ⟨?_, ?_, fun hst => ?_, fun hst r hr => ?_⟩
    · show (Function.update s.isolation t' _ t').level = _
      rw [Function.update_self, IsolationInfo.readSetAdd_level]
      exact htx.level
    · exact hl ▸ le_trans htx.clk hf.lastClk
    · change (Function.update s.isolation t' _ t').staleReadOccured = false at hst
      rw [Function.update_self] at hst
      obtain ⟨h1, -, h3⟩ := IsolationInfo.readSetAdd_linear htx.level hst
      show (Function.update s.isolation t' _ t').readSet =
        (Function.update s.reads t' _ t').map Read.entry
      rw [Function.update_self, Function.update_self, h3, htx.readSet h1, List.map_append]
      rfl
    · change (Function.update s.isolation t' _ t').staleReadOccured = false at hst
      rw [Function.update_self] at hst
      obtain ⟨h1, h2, -⟩ := IsolationInfo.readSetAdd_linear htx.level hst
      change r ∈ Function.update s.reads t' _ t' at hr
      rw [Function.update_self] at hr
      rcases List.mem_append.mp hr with hr | hr
      · refine (htx.reads h1 r hr).frame hf.toFrame ?_ hl hkeep
        rfl
      · obtain rfl := List.mem_singleton.mp hr
        refine (h.readOk_derefRead h2).frame hf.toFrame ?_ hl hkeep
        rfl
  · refine htx.frame hf.toFrame ?_ ?_ ?_ hl hkeep
    · rfl
    · exact Function.update_of_ne he _ _
    · exact Function.update_of_ne he _ _

/-! ### Locks -/

theorem inLog_lt {s : State α β} (hc : Core B s 0 0 []) {u : ℕ} (hk : k ∈ s.inLog u) :
    k < s.numCopies := by
  rcases List.mem_append.mp hk with hk | hk
  · obtain ⟨w, hw, hkw⟩ := mem_logged.mp hk
    exact (hc.members.copy u w hw k hkw).1
  · exact hc.locks.lt u k (Or.inl hk)

theorem LinInv.lock {sys : State α β} {o size : ℕ} (h : LinInv B org s)
    (hok : QpWaits B s (.lock t o size))
    (hs : step B s.sys (.lock t o (lockKind size)) = some sys) : LinInv B org { s with
      sys := sys
      places := s.places.lock s.sys t size
      vhdr := Function.update s.vhdr o true } := by
  have hsys := h.sys.step (by simp) hs
  have hc := h.sys.inv.core
  have hlt : ∀ u, ∀ k ∈ s.sys.inLog u, k < s.sys.numCopies := fun u k => inLog_lt hc
  cases Step.of_step hs with
  | lock _ _ _ htx =>
    have hhist : ∀ {o k}, k ∈ s.sys.hist o → k ≠ s.sys.numCopies :=
      fun hk => (hc.chains.mem _ _ hk).1.ne
    have hcopies : ∀ {k}, k ≠ s.sys.numCopies →
        (s.sys.lock t o (lockKind size)).copies k = s.sys.copies k :=
      fun hk => Function.update_of_ne hk _ _
    have hnew : ∀ o', (s.sys.lock t o (lockKind size)).newest o' = s.sys.newest o' := by
      intro o'
      refine Option.map_congr fun k hk => ?_
      rw [hcopies (hhist (List.mem_of_mem_head? hk))]
    refine {
      sys := hsys
      placed := h.placed.lock hok hlt
      vhdr := fun o' ho' => ?_
      held := fun u k hk => ?_
      tx := fun t' ht' => ?_
      serial := h.serial
      last := fun o' => (h.last o').trans (hnew o').symm }
    · change Function.update s.vhdr o true o' = false at ho'
      by_cases he : o' = o
      · rw [he, Function.update_self] at ho'
        cases ho'
      · rw [Function.update_of_ne he] at ho'
        exact h.vhdr o' ho'
    · show Function.update s.vhdr o true (Function.update s.sys.copies _ _ k).obj = true
      have hmem : k = s.sys.numCopies ∨ k ∈ s.sys.ws u := by
        change k ∈ (s.sys.lock t o (lockKind size)).ws u at hk
        rw [ws_lock] at hk
        split at hk
        · rename_i he
          rw [he]
          exact (List.mem_append.mp hk).symm.imp_left List.mem_singleton.mp
        · exact Or.inr hk
      rcases hmem with rfl | hk
      · rw [Function.update_self, Function.update_self]
      · rw [Function.update_of_ne (hlt u k (List.mem_append_right _ hk)).ne]
        by_cases he : (s.sys.copies k).obj = o
        · rw [he, Function.update_self]
        · rw [Function.update_of_ne he]
          exact h.held u k hk
    · have htx' := h.tx t' ht'
      refine ⟨htx'.level, htx'.clk, htx'.readSet, fun hst r hr => ?_⟩
      have hrok := htx'.reads hst r hr
      refine ⟨hrok.vhdr, hrok.latest.trans ?_, fun hn => ?_, fun k hk => ?_⟩
      · refine Option.map_congr fun k hk => ?_
        show Ptr.copy _ _ = .copy _ ((s.places.lock s.sys t size).addr k)
        rw [addr_lock_old (hhist (hrok.copy k hk).1)]
      · rw [hnew]
        refine (hrok.master hn).imp_right ?_
        rintro ⟨j, hj, hclk⟩
        refine ⟨j, hj, ?_⟩
        rw [hcopies (hhist (List.mem_of_mem_head? hj))]
        exact hclk
      · obtain ⟨h1, h2, h3⟩ := hrok.copy k hk
        refine ⟨h1, by rw [hcopies (hhist h1)]; exact h2, ?_⟩
        exact h3.lock h.placed hok hlt (h.sys.inv.tx.live t htx) (hc.chains.mem _ _ h1).1

/-! ### The end of a transaction -/

/-- A transaction that validates has read the newest version of everything. -/
theorem LinInv.readsFrom (h : LinInv B org s) (ht : s.sys.InTx t) (v : ℕ)
    (hval : (s.isolation t).validateReadSet s.pCopy s.getActVhdr = true) :
    Serial.ReadsFrom (s.txn t v) s.committed := by
  have htx := h.tx t ht
  have hst := IsolationInfo.validateReadSet_stale hval htx.level
  intro x hx
  obtain ⟨r, hr, rfl⟩ := List.mem_map.mp hx
  rw [h.last]
  refine (htx.reads hst r hr).newest h.sys.inv h.sys.logged h.placed ht h.vhdr ?_
  refine IsolationInfo.validateReadSet_entry hval (by rw [htx.level]; simp) ?_
  rw [htx.readSet hst]
  exact List.mem_map_of_mem hr

/-- A commit of another transaction: the versions it makes are above the clock of this
one. -/
theorem ReadOk.commit {sys : State α β} {t' : ℕ} (h : ReadOk B s t' r)
    (hcom : Committed s.sys t W [] sys) (hc : Core B s.sys t W []) (hv : s.sys.Reading B W)
    (hclk : s.sys.localClk t' ≤ s.sys.lastClk) (hl : sys.localClk t' = s.sys.localClk t')
    (hkeep : ∀ k, KeptCopy B s.sys s.places t' k → KeptCopy B sys s.places t' k) :
    ReadOk B { s with sys := sys, committed := s.txn t W :: s.committed } t' r := by
  have hother : ∀ {j}, j ∈ s.sys.hist r.obj → sys.copies j = s.sys.copies j :=
    fun hj => hcom.other _ fun hw => hc.not_hist_of_held hw hj
  have hhist : (∃ k, sys.hist r.obj = k :: s.sys.hist r.obj ∧ (sys.copies k).wrtClk = W) ∨
      sys.hist r.obj = s.sys.hist r.obj := by
    by_cases ho : r.obj ∈ s.sys.written (s.sys.ws t)
    · obtain ⟨k, hk, hkind, hobj⟩ := mem_written.mp ho
      exact Or.inl ⟨k, hcom.new r.obj k hk List.not_mem_nil hkind hobj⟩
    · exact Or.inr (hcom.same r.obj fun k hk _ hkind hobj =>
        ho (mem_written.mpr ⟨k, hk, hkind, hobj⟩))
  refine ⟨h.vhdr, h.latest, fun hn => ?_, fun k hk => ?_⟩
  · -- a read of the master: when the object is committed now, its version is above the local clock
    show _ = sys.newest r.obj ∨ ∃ j ∈ (sys.hist r.obj).head?, sys.localClk t' ≤ _
    rcases hhist with ⟨k, hh, hw⟩ | hh
    · right
      refine ⟨k, by rw [hh]; rfl, ?_⟩
      rw [hl, hw]
      exact le_trans hclk hv.1
    · rw [State.newest, hh, hl]
      rcases h.master hn with hm | ⟨j, hj, hm⟩
      · left
        rw [hm, State.newest]
        exact Option.map_congr fun j hj => by rw [hother (List.mem_of_mem_head? hj)]
      · right
        refine ⟨j, hj, ?_⟩
        show _ ≤ (sys.copies j).wrtClk + B
        rw [hother (List.mem_of_mem_head? hj)]
        exact hm
  · obtain ⟨h1, h2, h3⟩ := h.copy k hk
    refine ⟨?_, by rw [hother h1]; exact h2, hkeep k h3⟩
    rcases hhist with ⟨j, hh, -⟩ | hh
    · exact hh ▸ List.mem_cons_of_mem _ h1
    · exact hh ▸ h1

theorem LinInv.endTx {sys : State α β} {v : ℕ} {info : β} (h : LinInv B org s)
    (hval : (s.isolation t).validateReadSet s.pCopy s.getActVhdr = true)
    (hs : step B s.sys (.endTx t v info) = some sys) :
    LinInv B org { s with sys := sys, committed := s.txn t v :: s.committed } := by
  have hsys := h.sys.step (by simp) hs
  cases Step.of_step hs with
  | endRead _ _ _ ht hws =>
    have hf := frame_stop ht
    have hstop : LinInv B org { s with sys := s.sys.stop t } := by
      refine h.frame hsys hf.toFrame (h.placed.frame hf.logged rfl) rfl rfl fun t' ht' => ?_
      refine (h.tx t' (hf.tx t' ht').1).frame hf.toFrame ?_ ?_ ?_ (hf.tx t' ht').2 fun k hk =>
        hk.congr {} (inTx_stop ht ht').2
      · rfl
      · rfl
      · rfl
    refine { hstop with
      tx := fun t' ht' => { hstop.tx t' ht' with reads := fun hst r hr => ?_ }
      serial := ⟨h.readsFrom ht v hval, h.serial⟩
      last := fun o => ?_ }
    · exact { (hstop.tx t' ht').reads hst r hr with }
    · refine Eq.trans ?_ (hstop.last o)
      show (if o ∈ s.sys.written (s.sys.ws t) then _ else _) = _
      rw [hws]
      exact if_neg List.not_mem_nil
  | endTx _ _ _ ht hv hgt =>
    rw [gtClock_iff] at hgt
    have hc := h.sys.inv.core.retag t v
    have hcom := committed_tvlogCommit h.sys.noFree hc hv (by omega) info
    have hsame := sameThreads_tvlogCommit s.sys t v info
    have hcom' : Committed s.sys t v [] ((s.sys.tvlogCommit t v info).stop t) := { hcom with }
    refine {
      sys := hsys
      placed := h.placed.commit State.inLog_tvlogCommit fun u => ?_
      vhdr := fun o ho => ?_
      held := fun u k hk => ?_
      tx := fun t' ht' => ?_
      serial := ⟨h.readsFrom ht v hval, h.serial⟩
      last := fun o => ?_ }
    · show (s.sys.tvlogCommit t v info).ws u = _ ∧ (s.sys.tvlogCommit t v info).logged u = _ ∨
        (s.sys.tvlogCommit t v info).ws u = []
      rw [(tvlogCommit_ws s.sys t v info).1, State.logged_tvlogCommit]
      by_cases he : u = t
      · exact Or.inr (by rw [he, Function.update_self])
      · exact Or.inl ⟨Function.update_of_ne he _ _, if_neg he⟩
    · have hno : ∀ k ∈ s.sys.ws t, k ∉ [] → (s.sys.copies k).kind = .copy →
          (s.sys.copies k).obj ≠ o := by
        rintro k hk - - rfl
        have hheld := h.held t k hk
        change s.vhdr (s.sys.copies k).obj = false at ho
        rw [ho] at hheld
        cases hheld
      exact (hcom.same o hno).trans (h.vhdr o ho)
    · show s.vhdr ((s.sys.tvlogCommit t v info).copies k).obj = true
      rw [hcom.obj]
      exact h.held u k (mem_ws_tvlogCommit hk)
    · have htx : s.sys.InTx t' := by
        have htc : (s.sys.tvlogCommit t v info).InTx t := by
          rw [State.InTx, hsame.runCnt]
          exact ht
        have h1 := (inTx_stop htc ht').1
        rw [State.InTx, hsame.runCnt] at h1
        exact h1
      have htx' := h.tx t' htx
      have hl : ((s.sys.tvlogCommit t v info).stop t).localClk t' = s.sys.localClk t' :=
        congrFun hsame.localClk t'
      refine ⟨htx'.level, ?_, htx'.readSet, fun hst r hr => ?_⟩
      · show ((s.sys.tvlogCommit t v info).stop t).localClk t' ≤
          (s.sys.tvlogCommit t v info).lastClk
        rw [hl, (tvlogCommit_ws s.sys t v info).2]
        exact le_trans htx'.clk (le_max_left _ _)
      · exact (htx'.reads hst r hr).commit hcom' hc hv htx'.clk hl fun k hk => hk.commit ht ht'
    · show (if o ∈ s.sys.written (s.sys.ws t) then some v else Serial.lastWriter o s.committed) =
        (s.sys.tvlogCommit t v info).newest o
      rw [hcom.newest hc, h.last]

/-! ### Runs -/

theorem LinInv.step {op : LinOp α β} (h : LinInv B org s) (hok : QpWaits B s op)
    (hs : s.step B op = some s') : LinInv B org s' := by
  cases op with
  | lock t o size =>
    simp only [Lin.step] at hs
    split at hs
    · obtain ⟨sys, hsys, rfl⟩ := Option.map_eq_some_iff.mp hs
      exact h.lock hok hsys
    · cases hs
  | sys op =>
    cases op with
    | lock => cases hs
    | free => cases hs
    | begin t v =>
      simp only [Lin.step] at hs
      split at hs
      · obtain ⟨sys, hsys, rfl⟩ := Option.map_eq_some_iff.mp hs
        exact h.begin hsys
      · cases hs
    | deref t o =>
      obtain ⟨sys, hsys, rfl⟩ := Option.map_eq_some_iff.mp hs
      exact h.deref hsys
    | endTx t v info =>
      simp only [Lin.step] at hs
      split at hs
      · rename_i hval
        obtain ⟨sys, hsys, rfl⟩ := Option.map_eq_some_iff.mp hs
        exact h.endTx hval hsys
      · obtain ⟨sys, hsys, rfl⟩ := Option.map_eq_some_iff.mp hs
        exact h.abort hsys
    | abort t =>
      obtain ⟨sys, hsys, rfl⟩ := Option.map_eq_some_iff.mp hs
      exact h.abort hsys
    | request q =>
      obtain rfl := Option.some_inj.mp hs
      have hsys : step B s.sys (.request q) = some (s.sys.raise q) := rfl
      exact h.plain hok hsys trivial (by simp)
    | _ =>
      obtain ⟨sys, hsys, rfl⟩ := Option.map_eq_some_iff.mp hs
      exact h.plain hok hsys trivial (by simp)

theorem LinInv.initial (org : ℕ → α) : LinInv B org (Lin.initial org : Lin α β) where
  sys := ⟨inv_initial org, contents_initial org, sets_initial org,
    ⟨fun _ _ hk => (nomatch hk), fun _ _ hk => absurd hk List.not_mem_nil⟩,
    ⟨fun _ hk => absurd hk (Nat.not_lt_zero _), fun _ => rfl,
      fun _ he => absurd he (Nat.not_lt_zero _), fun _ => rfl, fun _ => rfl, rfl⟩,
    fun _ _ hp => (nomatch hp)⟩
  placed := .initial org
  vhdr := fun _ _ => rfl
  held := fun _ _ hk => absurd hk List.not_mem_nil
  tx := fun _ ht => absurd ht Nat.zero_ne_one
  serial := trivial
  last := fun _ => rfl

/-- A round of checkpoints of the threads 0 and 1, from the detection of quiescence on. -/
def ckptRound : List (LinOp α β) :=
  [.sys .detected, .sys .startTrigger, .sys (.trigger 0), .sys (.trigger 1), .sys .endTrigger,
    .sys .reapLock, .sys .endReap, .sys (.tvlogReclaim 0), .sys (.tvlogReclaim 1),
    .sys .startBarrier, .sys .publish]

/-- A transaction of thread 0 that begins at the clock `v`, writes the object `o` of `size`
bytes and commits at the clock `w`. -/
def writeOf (o size v w : ℕ) : List (LinOp ℕ ℕ) :=
  [.sys (.begin 0 v), .lock 0 o size, .sys (.endTx 0 w 0)]

/-- Thread 0 writes the objects 0, 1 and 2, which take 1000640 bytes of its log: the copy of
the object 0 is at the counter 128. -/
def fillLog : List (LinOp ℕ ℕ) :=
  [.sys (.threadInit 0), .sys (.threadInit 1)] ++ writeOf 0 8 10 14 ++ writeOf 1 700000 15 18 ++
    writeOf 2 300000 19 22

end TimeStone.System
