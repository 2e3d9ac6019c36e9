/-
Recovery of the checkpoint logs (`ckptlog_recovery`).

Recovery walks over the checkpoint logs in the order in which they are linked, and over every
log up to the first entry beyond the last checkpoint.  For each entry it makes the header of
the original master point at the newer one of this entry and the entry that the header points
at already, and it cuts the log off behind the entries it has seen.

The pointers of the headers are a map from objects to entries, and the walk keeps a newest
entry of every object in it (`Keeps`, `keeps_reconstruct`), whatever the order of the logs.

* `ckptlogRecovery_newest` — after recovery every object with an entry in a replayed prefix
  has a header whose current master is an entry with the latest write clock, for every order
  of the logs the same clock; the other objects are as before, and every log holds the entries
  of its replayed prefix.
-/
import TimeStone.Vhdr
import TimeStone.RecoveryScan
import TimeStone.Recovery
import TimeStone.Lib.Newest

namespace TimeStone.Recovery

open Ckptlog Vhdr

variable {α : Type}

/-- A persistent log that is linked from the NVM root, at address `addr`, with the contents of
a checkpoint log. -/
structure CkptStore (α : Type) where
  addr : ℕ
  type : NvlogType
  status : NvlogStatus
  log : Nvlog (CkptEntry α)

/-- The logs that `ckptlog_recovery` does not skip. -/
def CkptStore.IsCkptlog (s : CkptStore α) : Prop := s.type = .ckptlog ∧ s.status = .normal

instance (s : CkptStore α) : Decidable s.IsCkptlog := inferInstanceAs (Decidable (_ ∧ _))

/-- The entry is beyond the last checkpoint.  An entry that was not filled has no clock to
look at; it is not in a log. -/
def beyond (lastCkptClk : ℕ) (e : NvlogEntry (CkptEntry α)) : Bool :=
  match e.obj with
  | some ck => lastCkptClk < ck.ckptSClk
  | none => false

/-- What recovery reads of the entry at counter `p.1` of a log. -/
def CkptStore.replayed (s : CkptStore α) (p : ℕ × NvlogEntry (CkptEntry α)) : Option Replayed :=
  p.2.obj.map fun ck => ⟨⟨s.addr, nvlogIndex s.log p.1⟩, ck.npOrgAct, p.2.wrtClk⟩

/-- The body of the loop over the entries of a log, `none` if the entry was not filled. -/
def CkptStore.visit (s : CkptStore α) (wrtClkAt : Act → ℕ) (h : Option Heap)
    (p : ℕ × NvlogEntry (CkptEntry α)) : Option Heap := do
  let h ← h
  let x ← s.replayed p
  some (reconstructVolatileHeader wrtClkAt h x)

/-- `ckptlog_recovery`: the headers and the logs after it, `none` if it reads bytes that are
no entry. -/
def ckptlogRecovery (wrtClkAt : Act → ℕ) (lastCkptClk : ℕ) :
    List (CkptStore α) → Heap → Option (Heap × List (CkptStore α))
  | [], h => some (h, [])
  | s :: ss, h =>
    if s.IsCkptlog then do
      let (r, nvlog) ←
        nvlogScan (beyond lastCkptClk) (s.visit wrtClkAt) (some h) (nvlogLoad s.log)
      let h' ← r
      let (h'', ss') ← ckptlogRecovery wrtClkAt lastCkptClk ss h'
      some (h'', { s with log := nvlogTruncateTail nvlog nvlog.headCnt } :: ss')
    else do
      let (h', ss') ← ckptlogRecovery wrtClkAt lastCkptClk ss h
      some (h', s :: ss')

/-- The write clock in front of an object area.  What is in front of an original master is
never read. -/
def wrtClkAt (stores : List (CkptStore α)) : Act → ℕ
  | .entry p =>
    match stores.find? fun s => s.addr = p.log with
    | some s => ((s.log.buffer p.index).map NvlogEntry.wrtClk).getD 0
    | none => 0
  | .master _ => 0

/-- A log that decodes as `items`, all of them filled, and does not end in a filler. -/
structure WellFormed (s : CkptStore α) (items : List (ℕ × NvlogEntry (CkptEntry α))) : Prop where
  walk : Walk s.log s.log.storeHeadCnt items s.log.storeTailCnt
  bogus : ∀ p ∈ items, BogusOk s.log p
  ends : EndsInEntry items
  filled : ∀ p ∈ realEntries items, p.2.obj.isSome

/-- The entries of a log before the first one beyond the last checkpoint. -/
def replayedPrefix (lastCkptClk : ℕ) (items : List (ℕ × NvlogEntry (CkptEntry α))) :
    List (ℕ × NvlogEntry (CkptEntry α)) :=
  (realEntries items).takeWhile fun p => !beyond lastCkptClk p.2

/-- The entries that are replayed. -/
def CkptStore.allReplayed (lastCkptClk : ℕ)
    (itemsOf : ℕ → List (ℕ × NvlogEntry (CkptEntry α))) (s : CkptStore α) : List Replayed :=
  if s.IsCkptlog then (replayedPrefix lastCkptClk (itemsOf s.addr)).filterMap s.replayed else []

/-- The entries that are replayed, log by log. -/
def allReplayed (lastCkptClk : ℕ) (itemsOf : ℕ → List (ℕ × NvlogEntry (CkptEntry α)))
    (stores : List (CkptStore α)) : List Replayed :=
  stores.flatMap (CkptStore.allReplayed lastCkptClk itemsOf)

/-! ### The walk over one log -/

variable {s : CkptStore α} {items : List (ℕ × NvlogEntry (CkptEntry α))} {lastCkptClk : ℕ}
  {clkAt : Act → ℕ}

theorem foldl_visit (es : List (ℕ × NvlogEntry (CkptEntry α)))
    (hf : ∀ p ∈ es, p.2.obj.isSome) : ∀ h : Heap,
      es.foldl (s.visit clkAt) (some h) =
        some ((es.filterMap s.replayed).foldl (reconstructVolatileHeader clkAt) h) := by
  induction es with
  | nil =>
    intro h
    rfl
  | cons p es ih =>
    intro h
    obtain ⟨ck, hck⟩ := Option.isSome_iff_exists.mp (hf p List.mem_cons_self)
    have hr : s.replayed p = some ⟨⟨s.addr, nvlogIndex s.log p.1⟩, ck.npOrgAct, p.2.wrtClk⟩ := by
      rw [CkptStore.replayed, hck]
      rfl
    rw [List.foldl_cons, List.filterMap_cons, hr]
    have hv : s.visit clkAt (some h) p = some (reconstructVolatileHeader clkAt h
        ⟨⟨s.addr, nvlogIndex s.log p.1⟩, ck.npOrgAct, p.2.wrtClk⟩) := by
      rw [CkptStore.visit, hr]
      rfl
    rw [hv]
    exact ih (fun q hq => hf q (List.mem_cons_of_mem _ hq)) _

/-- The items behind the walk over a log are those of the replayed prefix, and perhaps a
filler. -/
theorem replayedPrefix_of_scan {σ : Type} {visit : σ → ℕ × NvlogEntry (CkptEntry α) → σ}
    {st st' : σ} {L : Nvlog (CkptEntry α)} {seen left : List (ℕ × NvlogEntry (CkptEntry α))}
    {d : ℕ} (h : ScanResult (beyond lastCkptClk) visit st L items seen left d st') :
    replayedPrefix lastCkptClk items = realEntries seen := by
  rw [replayedPrefix, h.items, realEntries_append, List.takeWhile_append_of_pos
    (fun p hp => by rw [h.goes p hp]; rfl)]
  rcases h.ends with hnil | ⟨e, rest, hleft, het, hstop⟩
  · rw [hnil]
    exact List.append_nil _
  · have hcons : realEntries ((d, e) :: rest) = (d, e) :: realEntries rest :=
      List.filter_cons_of_pos (by simpa using het)
    rw [hleft, hcons, List.takeWhile_cons_of_neg (by simp [hstop]), List.append_nil]

/-- The walk over a log that is well formed. -/
theorem WellFormed.scan (lastCkptClk : ℕ) (clkAt : Act → ℕ) (hwf : WellFormed s items)
    (h : Heap) :
    ∃ d kept, nvlogScan (beyond lastCkptClk) (s.visit clkAt) (some h) (nvlogLoad s.log) =
        some (some (((replayedPrefix lastCkptClk items).filterMap s.replayed).foldl
          (reconstructVolatileHeader clkAt) h), (nvlogLoad s.log).withHead d) ∧
      Walk s.log s.log.storeHeadCnt kept d ∧
      realEntries kept = replayedPrefix lastCkptClk items := by
  obtain ⟨seen, left, d, st', hscan, hres⟩ := scanLoop_spec (beyond lastCkptClk)
    (s.visit clkAt) _ (some h) (nvlogLoad s.log) items hwf.walk hwf.bogus hwf.ends
    (Nat.lt_succ_self _)
  have hpre := replayedPrefix_of_scan hres
  have hst : st' = some (((replayedPrefix lastCkptClk items).filterMap s.replayed).foldl
      (reconstructVolatileHeader clkAt) h) := by
    rw [hres.state, ← hpre]
    refine foldl_visit _ (fun p hp => hwf.filled p ?_) h
    rw [hpre] at hp
    rw [hres.items, realEntries_append]
    exact List.mem_append_left _ hp
  subst hst
  obtain ⟨m, hw1, hw2⟩ := Ring.Walk.split (hres.items ▸ hwf.walk)
  have hm : m = d := Nat.add_right_cancel (hw2.end_eq.symm.trans hres.walk.end_eq)
  exact ⟨d, seen, hscan, hm ▸ hw1, hpre.symm⟩

/-! ### The headers as a map -/

/-- The entries with their original masters as keys. -/
def keyed (xs : List Replayed) : List (ℕ × Replayed) := xs.map fun x => (x.npOrgAct, x)

theorem mem_keyed {xs : List Replayed} {o : ℕ} {x : Replayed} :
    (o, x) ∈ keyed xs ↔ x ∈ xs ∧ x.npOrgAct = o := by
  simp only [keyed, List.mem_map, Prod.mk.injEq]
  constructor
  · rintro ⟨y, hy, rfl, rfl⟩
    exact ⟨hy, rfl⟩
  · rintro ⟨hx, rfl⟩
    exact ⟨x, hx, rfl, rfl⟩

/-- The headers of `h`, which started as `h₀`, point at the entries of the map `m`; the
objects that are not in the map have their old headers. -/
structure Keeps (clkAt : Act → ℕ) (h₀ : Heap) (m : ℕ → Option Replayed) (h : Heap) : Prop where
  genId : h.genId = h₀.genId
  next : h₀.next ≤ h.next
  old : ∀ o, m o = none → h.nvhdr o = h₀.nvhdr o
  new : ∀ o x, m o = some x → ∃ n, h₀.next ≤ n ∧ n < h.next ∧
    h.nvhdr o = ⟨some ⟨h.genId, n⟩, h.genId⟩ ∧
    (h.vhdr ⟨h.genId, n⟩).npCurAct = .entry x.ptr ∧ clkAt (.entry x.ptr) = x.wrtClk ∧
    ∃ p, (h.vhdr ⟨h.genId, n⟩).npOrgAct = .entry p
  inj : ∀ o o' v, m o ≠ none → m o' ≠ none → (h.nvhdr o).pActVhdr = some v →
    (h.nvhdr o').pActVhdr = some v → o = o'
  frame : ∀ v : VhdrPtr, v.gen ≠ h₀.genId ∨ v.num < h₀.next → h.vhdr v = h₀.vhdr v

variable {h₀ h : Heap} {m : ℕ → Option Replayed} {x : Replayed}

theorem Keeps.start (h : Heap) : Keeps clkAt h (fun _ => none) h where
  genId := rfl
  next := le_rfl
  old _ _ := rfl
  new _ _ hx := by cases hx
  inj _ _ _ ho := absurd rfl ho
  frame _ _ := rfl

/-- An object without a header of this run gets one. -/
theorem Keeps.alloc (hk : Keeps clkAt h₀ m h) (hm : m x.npOrgAct = none)
    (hclk : clkAt (.entry x.ptr) = x.wrtClk) :
    Keeps clkAt h₀ (Function.update m x.npOrgAct (some x))
      ((allocActVhdr h (.entry x.ptr)).2.setNvhdr x.npOrgAct
        ⟨some ⟨h.genId, h.next⟩, h.genId⟩) := by
  have hnext := hk.next
  have hold : ∀ {o y}, m o = some y → o ≠ x.npOrgAct := by
    rintro o y ho rfl
    rw [hm] at ho
    cases ho
  -- a header of another object is an older one
  have hlt : ∀ o, o ≠ x.npOrgAct → Function.update m x.npOrgAct (some x) o ≠ none →
      ∀ v, (h.nvhdr o).pActVhdr = some v → v ≠ ⟨h.genId, h.next⟩ := by
    intro o hne ho v hv heq
    rw [Function.update_of_ne hne] at ho
    obtain ⟨y, hy⟩ := Option.ne_none_iff_exists'.mp ho
    obtain ⟨n, -, hn, hnv, -⟩ := hk.new o y hy
    rw [hnv, Option.some_inj, heq] at hv
    have := congrArg VhdrPtr.num hv
    simp only at this
    omega
  refine ⟨hk.genId, ?_, ?_, ?_, ?_, ?_⟩
  · exact Nat.le_succ_of_le hnext
  · intro o ho
    by_cases hne : o = x.npOrgAct
    · subst hne
      rw [Function.update_self] at ho
      cases ho
    · rw [Function.update_of_ne hne] at ho
      simp only [Heap.setNvhdr, Function.update_of_ne hne]
      exact hk.old o ho
  · intro o y ho
    by_cases hne : o = x.npOrgAct
    · subst hne
      rw [Function.update_self, Option.some_inj] at ho
      subst ho
      refine ⟨h.next, hnext, Nat.lt_succ_self _, ?_, ?_, hclk, x.ptr, ?_⟩ <;>
      simp [Heap.setNvhdr, allocActVhdr]
    · rw [Function.update_of_ne hne] at ho
      obtain ⟨n, h1, h2, h3, h4, h5, h6⟩ := hk.new o y ho
      have hv : (⟨h.genId, n⟩ : VhdrPtr) ≠ ⟨h.genId, h.next⟩ := by
        simp only [ne_eq, VhdrPtr.mk.injEq, not_and]
        omega
      refine ⟨n, h1, Nat.lt_succ_of_lt h2, ?_, ?_, h5, ?_⟩
      · simp only [Heap.setNvhdr, Function.update_of_ne hne]
        exact h3
      · simp only [Heap.setNvhdr, allocActVhdr, Function.update_of_ne hv]
        exact h4
      · simp only [Heap.setNvhdr, allocActVhdr, Function.update_of_ne hv]
        exact h6
  · intro o o' v ho ho' hv hv'
    simp only [Heap.setNvhdr, allocActVhdr] at hv hv'
    by_cases hne : o = x.npOrgAct <;> by_cases hne' : o' = x.npOrgAct
    · rw [hne, hne']
    · subst hne
      rw [Function.update_self, Option.some_inj] at hv
      rw [Function.update_of_ne hne'] at hv'
      exact absurd hv.symm (hlt o' hne' ho' v hv')
    · subst hne'
      rw [Function.update_self, Option.some_inj] at hv'
      rw [Function.update_of_ne hne] at hv
      exact absurd hv'.symm (hlt o hne ho v hv)
    · rw [Function.update_of_ne hne] at hv ho
      rw [Function.update_of_ne hne'] at hv' ho'
      exact hk.inj o o' v ho ho' hv hv'
  · intro v hv
    have hne : v ≠ ⟨h.genId, h.next⟩ := by
      rintro rfl
      rcases hv with hv | hv
      · exact hv hk.genId
      · simp only at hv
        omega
    simp only [Heap.setNvhdr, allocActVhdr, Function.update_of_ne hne]
    exact hk.frame v hv

/-- The header of an object moves on to a newer entry. -/
theorem Keeps.move {y : Replayed} {n : ℕ} (hk : Keeps clkAt h₀ m h)
    (hm : m x.npOrgAct = some y) (hn : h₀.next ≤ n)
    (hnv : h.nvhdr x.npOrgAct = ⟨some ⟨h.genId, n⟩, h.genId⟩)
    (hclk : clkAt (.entry x.ptr) = x.wrtClk) :
    Keeps clkAt h₀ (Function.update m x.npOrgAct (some x))
      (h.setCurAct ⟨h.genId, n⟩ (.entry x.ptr)) := by
  have hsome : ∀ {o}, Function.update m x.npOrgAct (some x) o ≠ none → m o ≠ none := by
    intro o ho
    by_cases hne : o = x.npOrgAct
    · rw [hne, hm]
      exact Option.some_ne_none _
    · rwa [Function.update_of_ne hne] at ho
  refine ⟨hk.genId, hk.next, ?_, ?_, ?_, ?_⟩
  · intro o ho
    by_cases hne : o = x.npOrgAct
    · rw [hne, Function.update_self] at ho
      cases ho
    · rw [Function.update_of_ne hne] at ho
      exact hk.old o ho
  · intro o z ho
    by_cases hne : o = x.npOrgAct
    · subst hne
      rw [Function.update_self, Option.some_inj] at ho
      subst ho
      obtain ⟨n', h1, h2, h3, -, -, h6⟩ := hk.new _ y hm
      rw [hnv] at h3
      have hnn : n = n' := by simpa using h3
      subst hnn
      refine ⟨n, h1, h2, hnv, by simp [Heap.setCurAct], hclk, ?_⟩
      simp only [Heap.setCurAct, Function.update_self]
      exact h6
    · rw [Function.update_of_ne hne] at ho
      obtain ⟨n', h1, h2, h3, h4, h5, h6⟩ := hk.new o z ho
      -- the header of another object is another one
      have hv : (⟨h.genId, n'⟩ : VhdrPtr) ≠ ⟨h.genId, n⟩ := by
        intro heq
        refine hne (hk.inj o x.npOrgAct ⟨h.genId, n⟩ ?_ ?_ ?_ ?_)
        · rw [ho]
          exact Option.some_ne_none _
        · rw [hm]
          exact Option.some_ne_none _
        · rw [h3, heq]
        · rw [hnv]
      refine ⟨n', h1, h2, h3, ?_, h5, ?_⟩
      · simp only [Heap.setCurAct, Function.update_of_ne hv]
        exact h4
      · simp only [Heap.setCurAct, Function.update_of_ne hv]
        exact h6
  · intro o o' v ho ho' hv hv'
    exact hk.inj o o' v (hsome ho) (hsome ho') hv hv'
  · intro v hv
    have hne : v ≠ ⟨h.genId, n⟩ := by
      rintro rfl
      rcases hv with hv | hv
      · exact hv hk.genId
      · simp only at hv
        omega
    simp only [Heap.setCurAct, Function.update_of_ne hne]
    exact hk.frame v hv

/-- `reconstruct_volatile_header` keeps the newer entry of the object. -/
theorem keeps_reconstruct (hgen : ∀ o, (h₀.nvhdr o).genId ≠ h₀.genId)
    (hk : Keeps clkAt h₀ m h) (hclk : clkAt (.entry x.ptr) = x.wrtClk) :
    Keeps clkAt h₀ (Newest.keep Replayed.wrtClk m (x.npOrgAct, x))
      (reconstructVolatileHeader clkAt h x) := by
  rw [Newest.keep]
  cases hm : m x.npOrgAct with
  | none =>
    have hne : (h.nvhdr x.npOrgAct).genId ≠ h.genId := by
      rw [hk.old _ hm, hk.genId]
      exact hgen _
    have hrec : reconstructVolatileHeader clkAt h x =
        (allocActVhdr h (.entry x.ptr)).2.setNvhdr x.npOrgAct
          ⟨some ⟨h.genId, h.next⟩, h.genId⟩ := by
      rw [reconstructVolatileHeader]
      cases hp : (h.nvhdr x.npOrgAct).pActVhdr with
      | none => rfl
      | some v =>
        simp only
        rw [if_pos hne]
        rfl
    rw [hrec]
    exact hk.alloc hm hclk
  | some y =>
    obtain ⟨n, h1, -, h3, h4, h5, -⟩ := hk.new _ y hm
    have hrec : reconstructVolatileHeader clkAt h x =
        if y.wrtClk < x.wrtClk then h.setCurAct ⟨h.genId, n⟩ (.entry x.ptr) else h := by
      rw [reconstructVolatileHeader, h3]
      simp only [ne_eq, not_true_eq_false, if_false]
      rw [h4, h5]
    rw [hrec]
    simp only
    split
    · exact hk.move hm h1 h3 hclk
    · rw [← hm, Function.update_eq_self]
      exact hk

theorem keeps_foldl (hgen : ∀ o, (h₀.nvhdr o).genId ≠ h₀.genId) (xs : List Replayed) :
    ∀ (m : ℕ → Option Replayed) (h : Heap), Keeps clkAt h₀ m h →
      (∀ x ∈ xs, clkAt (.entry x.ptr) = x.wrtClk) →
      Keeps clkAt h₀ ((keyed xs).foldl (Newest.keep Replayed.wrtClk) m)
        (xs.foldl (reconstructVolatileHeader clkAt) h) := by
  induction xs with
  | nil =>
    intro m h hk _
    exact hk
  | cons x xs ih =>
    intro m h hk hclk
    exact ih _ _ (keeps_reconstruct hgen hk (hclk x List.mem_cons_self)) fun y hy =>
      hclk y (List.mem_cons_of_mem _ hy)

/-! ### All logs -/

variable {itemsOf : ℕ → List (ℕ × NvlogEntry (CkptEntry α))} {stores : List (CkptStore α)}

/-- What recovery leaves of a log: other logs are as before; a checkpoint log holds the
entries of its replayed prefix, and perhaps a filler behind them. -/
def Truncated (lastCkptClk : ℕ) (itemsOf : ℕ → List (ℕ × NvlogEntry (CkptEntry α)))
    (s s' : CkptStore α) : Prop :=
  if s.IsCkptlog then
    s'.addr = s.addr ∧ s'.type = s.type ∧ s'.status = s.status ∧
      ∃ kept, Walk s'.log s'.log.storeHeadCnt kept s'.log.storeTailCnt ∧
        realEntries kept = replayedPrefix lastCkptClk (itemsOf s.addr)
  else s' = s

/-- Recovery is the walk over all the entries that are replayed. -/
theorem ckptlogRecovery_eq (clkAt : Act → ℕ) (lastCkptClk : ℕ) (stores : List (CkptStore α)) :
    ∀ h : Heap,
    (∀ s ∈ stores, s.IsCkptlog → WellFormed s (itemsOf s.addr)) →
    ∃ stores', ckptlogRecovery clkAt lastCkptClk stores h =
        some ((allReplayed lastCkptClk itemsOf stores).foldl
          (reconstructVolatileHeader clkAt) h, stores') ∧
      List.Forall₂ (Truncated lastCkptClk itemsOf) stores stores' := by
  induction stores with
  | nil =>
    intro h _
    exact ⟨[], rfl, .nil⟩
  | cons s ss ih =>
    intro h hwf
    have hss : ∀ s ∈ ss, s.IsCkptlog → WellFormed s (itemsOf s.addr) := fun s' hs' =>
      hwf s' (List.mem_cons_of_mem _ hs')
    rw [allReplayed, List.flatMap_cons, List.foldl_append, ckptlogRecovery]
    by_cases hck : s.IsCkptlog
    · obtain ⟨d, kept, hscan, hw, hkept⟩ :=
        (hwf s List.mem_cons_self hck).scan lastCkptClk clkAt h
      obtain ⟨ss', hrec, hall⟩ := ih (((replayedPrefix lastCkptClk (itemsOf s.addr)).filterMap
        s.replayed).foldl (reconstructVolatileHeader clkAt) h) hss
      rw [if_pos hck, hscan]
      simp only [Option.bind_eq_bind, Option.bind_some]
      rw [hrec]
      refine ⟨{ s with log := nvlogTruncateTail ((nvlogLoad s.log).withHead d) d } :: ss', ?_,
        .cons ?_ hall⟩
      · rw [CkptStore.allReplayed, if_pos hck]
        rfl
      · rw [Truncated, if_pos hck]
        exact ⟨rfl, rfl, rfl, kept, hw, hkept⟩
    · obtain ⟨ss', hrec, hall⟩ := ih h hss
      rw [if_neg hck, hrec]
      refine ⟨s :: ss', ?_, .cons ?_ hall⟩
      · rw [CkptStore.allReplayed, if_neg hck]
        rfl
      · rw [Truncated, if_neg hck]

theorem find_addr (haddr : (stores.map CkptStore.addr).Nodup) (hs : s ∈ stores) :
    stores.find? (fun t => t.addr = s.addr) = some s := by
  induction stores with
  | nil => cases hs
  | cons t ts ih =>
    rw [List.map_cons, List.nodup_cons] at haddr
    rcases List.mem_cons.mp hs with rfl | hs
    · exact List.find?_cons_of_pos (by simp)
    · have hne : ¬ t.addr = s.addr := fun heq =>
        haddr.1 (heq ▸ List.mem_map_of_mem hs)
      rw [List.find?_cons_of_neg (by simpa using hne)]
      exact ih haddr.2 hs

/-- The write clock that recovery reads back through a pointer is that of the entry. -/
theorem wrtClkAt_replayed (haddr : (stores.map CkptStore.addr).Nodup)
    (hwf : ∀ s ∈ stores, s.IsCkptlog → WellFormed s (itemsOf s.addr)) {x : Replayed}
    (hx : x ∈ allReplayed lastCkptClk itemsOf stores) :
    wrtClkAt stores (.entry x.ptr) = x.wrtClk := by
  obtain ⟨s, hs, hxs⟩ := List.mem_flatMap.mp hx
  rw [CkptStore.allReplayed] at hxs
  split at hxs
  · rename_i hck
    obtain ⟨p, hp, hpx⟩ := List.mem_filterMap.mp hxs
    obtain ⟨ck, -, rfl⟩ := Option.map_eq_some_iff.mp hpx
    have hmem : p ∈ itemsOf s.addr :=
      List.mem_of_mem_filter (List.takeWhile_subset _ hp)
    have hat := ((hwf s hs hck).walk.mem hmem).2.2.1
    simp only [wrtClkAt, find_addr haddr hs, nvlogIndex, hat]
    rfl
  · cases hxs

theorem keeps_recovery (lastCkptClk : ℕ) (haddr : (stores.map CkptStore.addr).Nodup)
    (hwf : ∀ s ∈ stores, s.IsCkptlog → WellFormed s (itemsOf s.addr))
    (hgen : ∀ o, (h.nvhdr o).genId ≠ h.genId) :
    ∃ m, Keeps (wrtClkAt stores) h m ((allReplayed lastCkptClk itemsOf stores).foldl
        (reconstructVolatileHeader (wrtClkAt stores)) h) ∧
      ∀ o, Newest.IsNewest Replayed.wrtClk (keyed (allReplayed lastCkptClk itemsOf stores)) o
        (m o) := by
  refine ⟨_, keeps_foldl hgen _ _ h (.start h) fun x hx => wrtClkAt_replayed haddr hwf hx, ?_⟩
  exact Newest.isNewest_foldl _ [] (fun _ => none) fun _ _ => List.not_mem_nil

/-- The header of an object, with an entry of the object as its current master. -/
def HasCurrent (h : Heap) (o : ℕ) (x : Replayed) : Prop :=
  x.npOrgAct = o ∧ ∃ v, h.nvhdr o = ⟨some v, h.genId⟩ ∧ (h.vhdr v).npCurAct = .entry x.ptr

/-- An object with a replayed entry has a newest one as its current master. -/
theorem Keeps.current {xs : List Replayed} {o : ℕ} (hk : Keeps clkAt h₀ m h)
    (hm : Newest.IsNewest Replayed.wrtClk (keyed xs) o (m o))
    (ho : ∃ x ∈ xs, x.npOrgAct = o) :
    ∃ x, (x ∈ xs ∧ m o = some x) ∧ HasCurrent h o x ∧
      ∀ y ∈ xs, y.npOrgAct = o → y.wrtClk ≤ x.wrtClk := by
  cases hx : m o with
  | none =>
    rw [hx] at hm
    obtain ⟨y, hy, heq⟩ := ho
    exact absurd (mem_keyed.mpr ⟨hy, heq⟩) (hm y)
  | some x =>
    rw [hx] at hm
    obtain ⟨hmem, horg⟩ := mem_keyed.mp hm.1
    obtain ⟨n, -, -, hnv, hcur, -⟩ := hk.new o x hx
    exact ⟨x, ⟨hmem, rfl⟩, ⟨horg, _, hnv, hcur⟩, fun y hy heq =>
      hm.2 y (mem_keyed.mpr ⟨hy, heq⟩)⟩

/-- Recovery of logs that are well formed, with no header of the current generation before
it: an object with a replayed entry has a header with one of the latest write clock, other
objects and older headers are untouched, and every log holds the entries of its replayed
prefix.  Whatever the order of the logs, the latest write clock of an object is the same. -/
theorem ckptlogRecovery_newest (lastCkptClk : ℕ)
    (itemsOf : ℕ → List (ℕ × NvlogEntry (CkptEntry α))) (haddr : (stores.map CkptStore.addr).Nodup)
    (hwf : ∀ s ∈ stores, s.IsCkptlog → WellFormed s (itemsOf s.addr))
    (hgen : ∀ o, (h.nvhdr o).genId ≠ h.genId) :
    let xs := allReplayed lastCkptClk itemsOf stores
    ∃ h' stores',
      ckptlogRecovery (wrtClkAt stores) lastCkptClk stores h = some (h', stores') ∧
      h'.genId = h.genId ∧
      (∀ o, (∃ x ∈ xs, x.npOrgAct = o) →
        ∃ x ∈ xs, HasCurrent h' o x ∧ ∀ y ∈ xs, y.npOrgAct = o → y.wrtClk ≤ x.wrtClk) ∧
      (∀ o, (∀ x ∈ xs, x.npOrgAct ≠ o) → h'.nvhdr o = h.nvhdr o) ∧
      (∀ v : VhdrPtr, v.gen ≠ h.genId ∨ v.num < h.next → h'.vhdr v = h.vhdr v) ∧
      List.Forall₂ (Truncated lastCkptClk itemsOf) stores stores' ∧
      ∀ stores₂, stores.Perm stores₂ → ∃ h₂ stores₂',
        ckptlogRecovery (wrtClkAt stores₂) lastCkptClk stores₂ h = some (h₂, stores₂') ∧
        ∀ o, (∃ x ∈ xs, x.npOrgAct = o) → ∃ x ∈ xs, ∃ x₂ ∈ xs,
          HasCurrent h' o x ∧ HasCurrent h₂ o x₂ ∧ x.wrtClk = x₂.wrtClk := by
  intro xs
  obtain ⟨stores', hrec, htrunc⟩ := ckptlogRecovery_eq (wrtClkAt stores) lastCkptClk stores h hwf
  obtain ⟨m, hk, hm⟩ := keeps_recovery lastCkptClk haddr hwf hgen
  refine ⟨_, stores', hrec, hk.genId, ?_, ?_, hk.frame, htrunc, ?_⟩
  · intro o ho
    obtain ⟨x, hx, hcur, hmax⟩ := hk.current (hm o) ho
    exact ⟨x, hx.1, hcur, hmax⟩
  · intro o ho
    refine hk.old o ?_
    have hmo := hm o
    cases hx : m o with
    | none => rfl
    | some x =>
      rw [hx] at hmo
      obtain ⟨hmem, heq⟩ := mem_keyed.mp hmo.1
      exact absurd heq (ho x hmem)
  · intro stores₂ hperm
    -- the other order replays the same entries in another order
    have haddr₂ : (stores₂.map CkptStore.addr).Nodup := (hperm.map _).nodup_iff.mp haddr
    have hwf₂ : ∀ s ∈ stores₂, s.IsCkptlog → WellFormed s (itemsOf s.addr) := fun s hs =>
      hwf s (hperm.mem_iff.mpr hs)
    have hxs : xs.Perm (allReplayed lastCkptClk itemsOf stores₂) := hperm.flatMap_right _
    obtain ⟨stores₂', hrec₂, -⟩ :=
      ckptlogRecovery_eq (wrtClkAt stores₂) lastCkptClk stores₂ h hwf₂
    obtain ⟨m₂, hk₂, hm₂⟩ := keeps_recovery lastCkptClk haddr₂ hwf₂ hgen
    refine ⟨_, stores₂', hrec₂, fun o ho => ?_⟩
    have ho₂ : ∃ x ∈ allReplayed lastCkptClk itemsOf stores₂, x.npOrgAct = o := by
      obtain ⟨x, hx, heq⟩ := ho
      exact ⟨x, hxs.mem_iff.mp hx, heq⟩
    obtain ⟨x, ⟨hx, hmx⟩, hcur, -⟩ := hk.current (hm o) ho
    obtain ⟨x₂, ⟨hx₂, hmx₂⟩, hcur₂, -⟩ := hk₂.current (hm₂ o) ho₂
    have hnew := hm o
    have hnew₂ := hm₂ o
    rw [hmx] at hnew
    rw [hmx₂] at hnew₂
    exact ⟨x, hx, x₂, hxs.mem_iff.mpr hx₂, hcur, hcur₂,
      hnew.clk_eq (hxs.map _) hnew₂⟩

/-- A checkpoint entry of one line. -/
def ckptEntry64 (wrtClk ckptSClk npOrgAct : ℕ) : NvlogEntry (CkptEntry Unit) :=
  ⟨wrtClk, 64, .entry, some ⟨ckptSClk, npOrgAct, false, 8, some ()⟩⟩

/-- The items of two logs of 256 bytes: object 7 has two entries in the first one, the second
of them beyond clock 6, and an entry behind a filler in the other one. -/
def twoLogsItems : ℕ → List (ℕ × NvlogEntry (CkptEntry Unit))
  | 0 => [(0, ckptEntry64 10 5 7), (64, ckptEntry64 30 9 7)]
  | 1 => [(192, ⟨0, 64, .bogus, none⟩), (256, ckptEntry64 20 6 7)]
  | _ => []

/-- The log with the items from `headCnt` to `tailCnt`. -/
def logOfItems (items : List (ℕ × NvlogEntry (CkptEntry Unit))) (headCnt tailCnt : ℕ) :
    Nvlog (CkptEntry Unit) where
  headCnt := headCnt
  tailCnt := tailCnt
  prevHeadCnt := headCnt
  logSize := 256
  buffer := fun i => (items.find? fun p => p.1 % 256 = i).map Prod.snd
  storeHeadCnt := headCnt
  storeTailCnt := tailCnt

def twoLogs : List (CkptStore Unit) :=
  [⟨0, .ckptlog, .normal, logOfItems (twoLogsItems 0) 0 128⟩,
    ⟨1, .ckptlog, .normal, logOfItems (twoLogsItems 1) 192 320⟩]

theorem twoLogs_wellFormed (s : CkptStore Unit) (hs : s ∈ twoLogs) :
    WellFormed s (twoLogsItems s.addr) := by
  simp only [twoLogs, List.mem_cons, List.not_mem_nil, or_false] at hs
  rcases hs with rfl | rfl
  · refine ⟨⟨rfl, rfl, by decide, by decide, rfl, rfl, by decide, by decide, rfl⟩, ?_, ?_, ?_⟩
    · simp [twoLogsItems, BogusOk, ckptEntry64]
    · simp [EndsInEntry, twoLogsItems, ckptEntry64]
    · simp [realEntries, twoLogsItems, ckptEntry64]
  · refine ⟨⟨rfl, rfl, by decide, by decide, rfl, rfl, by decide, by decide, rfl⟩, ?_, ?_, ?_⟩
    · simp [twoLogsItems, BogusOk, ckptEntry64, logOfItems]
    · simp [EndsInEntry, twoLogsItems, ckptEntry64]
    · simp [realEntries, twoLogsItems, ckptEntry64]

/-- The heap of a second run, in which no object has been locked. -/
def secondRun : Heap :=
  ⟨2, fun _ => ⟨none, 1⟩, fun _ => ⟨none, none, .master 0, .master 0, 0⟩, 0⟩

theorem secondRun_genId (o : ℕ) : (secondRun.nvhdr o).genId ≠ secondRun.genId :=
  show 1 ≠ 2 by decide

/-- Recovery with the last checkpoint at clock 6 takes the entry of the second log for
object 7. -/
theorem ckptlogRecovery_newest_twoLogs :
    ∃ h' stores' x, ckptlogRecovery (wrtClkAt twoLogs) 6 twoLogs secondRun =
      some (h', stores') ∧ HasCurrent h' 7 x ∧ x.wrtClk = 20 := by
  have hxs : allReplayed 6 twoLogsItems twoLogs = [⟨⟨0, 0⟩, 7, 10⟩, ⟨⟨1, 0⟩, 7, 20⟩] := by decide
  obtain ⟨h', stores', hrec, -, hnew, -⟩ := ckptlogRecovery_newest 6 twoLogsItems
    (show (twoLogs.map CkptStore.addr).Nodup by decide)
    (fun s hs _ => twoLogs_wellFormed s hs) secondRun_genId
  rw [hxs] at hnew
  obtain ⟨x, hx, hcur, hmax⟩ := hnew 7 ⟨⟨⟨0, 0⟩, 7, 10⟩, by decide, rfl⟩
  have h20 := hmax ⟨⟨1, 0⟩, 7, 20⟩ (by decide) rfl
  refine ⟨h', stores', x, hrec, hcur, ?_⟩
  simp only [List.mem_cons, List.not_mem_nil, or_false] at hx
  rcases hx with rfl | rfl
  · exact absurd h20 (by decide)
  · rfl

end TimeStone.Recovery
