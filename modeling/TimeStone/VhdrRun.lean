/-
The volatile headers over whole runs, with restarts (`try_alloc_act_vhdr`, `get_act_vhdr`,
`ckptlog_recovery`).

Threads race for the header of an object, lock it through the header, enqueue checkpoint
entries of its copies and write them back; a crash loses what is in DRAM, and the next run
recovers from the entries of the checkpoint logs.  Two things go wrong at a restart:

* recovery passes the object area of the checkpoint entry to `alloc_act_vhdr`, and so makes it
  the original master of the header (`headers_of_noReplay` is about runs that replay nothing,
  `recovery_wrong_master` about others).  When such an object is checkpointed again, its new
  entry has an entry as `np_org_act`, and `get_act_vhdr` takes what lies in front of the object
  area of that one for a header pointer (`front`);
* the generation beside the pointer to a header is not looked at, so that an object that
  recovery does not visit keeps the pointer of an earlier run.

`pointers_of_covered` is about runs in which neither happens; `stale_pointer` is one with the
second.
-/
import TimeStone.CkptRecovery

namespace TimeStone.Vhdr

open Ckptlog

/-- Where a thread is in `try_alloc_act_vhdr` of an object: it has read the header, with its
generation, or it has allocated a volatile one as well. -/
inductive AllocPc
  | idle
  | loaded (obj genId : ℕ)
  | allocated (obj genId : ℕ) (v : VhdrPtr)
  deriving DecidableEq

/-- The headers, what the NVM held of them when the run started, the checkpoint entries with
`np_org_act` and write clock, `p_act_vhdr` of the copies, and the threads.  `front` is what is
in front of the object area of an entry, where a master has its `act_nvhdr`.  An entry keeps
its address for good: what becomes of pointers into a ring that is reused is the matter of
`CkptlogMaster`. -/
structure State where
  heap : Heap
  nvhdrOld : ℕ → ActNvhdr
  entries : EntryPtr → Option (Act × ℕ)
  front : EntryPtr → ActNvhdr
  copies : ℕ → Option VhdrPtr
  threads : ℕ → AllocPc

/-- An object that the application or the library has a pointer to. -/
inductive Obj
  | act (a : Act)
  | copy (c : ℕ)
  deriving DecidableEq

/-- The `act_nvhdr` of `np_org_act`.  `obj_to_ahs` does not look at its type. -/
def State.actNvhdr (s : State) : Act → ActNvhdr
  | .master a => s.heap.nvhdr a
  | .entry e => s.front e

/-- `get_act_vhdr`.  The generation is not looked at. -/
def getActVhdr (s : State) : Obj → Option VhdrPtr
  | .act (.master a) => (s.heap.nvhdr a).pActVhdr
  | .act (.entry e) =>
    match s.entries e with
    | some (org, _) => (s.actNvhdr org).pActVhdr
    | none => none
  | .copy c => s.copies c

/-- `get_org_act_obj`. -/
def getOrgActObj (s : State) (obj : Obj) : Obj :=
  match getActVhdr s obj with
  | some v => .act (s.heap.vhdr v).npOrgAct
  | none => obj

/-- The word where an entry has its write clock. -/
def State.wrtClkAt (s : State) : Act → ℕ
  | .entry e => ((s.entries e).map Prod.snd).getD 0
  | .master _ => 0

/-- What a new entry has in front of its object area: its size and type, which are read as a
pointer that no run has allocated, and `ckpt_s_clk` in the place of the generation. -/
def frontOf (size ckptSClk : ℕ) : ActNvhdr := ⟨some ⟨0, size⟩, ckptSClk⟩

/-- What recovery reads of an entry: as in `Replayed`, but with any `np_org_act`. -/
structure Replay where
  ptr : EntryPtr
  npOrgAct : Act
  wrtClk : ℕ
  deriving DecidableEq

/-- `reconstruct_volatile_header`, for the headers and what is in front of the entries.  With an
entry as `np_org_act` it runs on the bytes `front e` in place of an `act_nvhdr`. -/
def reconstruct (wrtClkAt : Act → ℕ) (m : Heap × (EntryPtr → ActNvhdr)) (x : Replay) :
    Heap × (EntryPtr → ActNvhdr) :=
  match x.npOrgAct with
  | .master a => (reconstructVolatileHeader wrtClkAt m.1 ⟨x.ptr, a, x.wrtClk⟩, m.2)
  | .entry e =>
    let h := reconstructVolatileHeader wrtClkAt { m.1 with nvhdr := fun _ => m.2 e }
      ⟨x.ptr, 0, x.wrtClk⟩
    ({ h with nvhdr := m.1.nvhdr }, Function.update m.2 e (h.nvhdr 0))

inductive Action
  /-- `try_alloc_act_vhdr` of a master reads its header, which has no volatile one.  Of an entry
  it reads `front`, finds a pointer there and returns. -/
  | load (t obj : ℕ)
  /-- It calls `alloc_act_vhdr`. -/
  | alloc (t : ℕ)
  /-- Its compare-and-swap; the volatile header is freed if it fails. -/
  | cas (t : ℕ)
  /-- `_ts_try_lock` makes the copy `c` of an object. -/
  | lock (c : ℕ) (obj : Obj)
  /-- `ckptlog_enq` of a copy makes an entry of `size` bytes. -/
  | enq (c : ℕ) (e : EntryPtr) (wrtClk ckptSClk size : ℕ)
  /-- The writeback of an entry in `ckptlog_reclaim_x`. -/
  | writeback (e : EntryPtr)
  /-- A crash, `nvm_init_heap` and `ckptlog_recovery`, which replays `xs`.  The last store to
  the headers of the objects `lost` has not reached the NVM; `junk` is what the DRAM holds. -/
  | restart (lost : List ℕ) (junk : VhdrPtr → ActVhdr) (xs : List Replay)

/-- The headers that a crash leaves in NVM. -/
def State.image (s : State) (lost : List ℕ) (a : ℕ) : ActNvhdr :=
  if a ∈ lost then s.nvhdrOld a else s.heap.nvhdr a

/-- The heap after `nvm_init_heap`, which counts `gen_id` up. -/
def State.nvmInitHeap (s : State) (lost : List ℕ) (junk : VhdrPtr → ActVhdr) : Heap :=
  ⟨s.heap.genId + 1, s.image lost, junk, 0⟩

def step (s : State) : Action → Option State
  | .load t obj =>
    if s.threads t = .idle ∧ (s.heap.nvhdr obj).pActVhdr = none then
      some { s with
        threads := Function.update s.threads t (.loaded obj (s.heap.nvhdr obj).genId) }
    else none
  | .alloc t =>
    match s.threads t with
    | .loaded obj genId =>
      let (v, h) := allocActVhdr s.heap (.master obj)
      some { s with
        heap := h
        threads := Function.update s.threads t (.allocated obj genId v) }
    | _ => none
  | .cas t =>
    match s.threads t with
    | .allocated obj genId v =>
      some { s with
        heap := if s.heap.nvhdr obj = ⟨none, genId⟩ then
          s.heap.setNvhdr obj ⟨some v, s.heap.genId⟩ else s.heap
        threads := Function.update s.threads t .idle }
    | _ => none
  | .lock c obj =>
    match s.copies c, getActVhdr s obj with
    | none, some v => some { s with copies := Function.update s.copies c (some v) }
    | _, _ => none
  | .enq c e wrtClk ckptSClk size =>
    match s.copies c, s.entries e with
    | some v, none =>
      some { s with
        heap := s.heap.setCurAct v (.entry e)
        entries := Function.update s.entries e (some ((s.heap.vhdr v).npOrgAct, wrtClk))
        front := Function.update s.front e (frontOf size ckptSClk) }
    | _, _ => none
  | .writeback e =>
    match s.entries e with
    | some (org, _) =>
      match getActVhdr s (.act org) with
      | some v =>
        some { s with
          heap := if (s.heap.vhdr v).npCurAct = .entry e then
            s.heap.setCurAct v (s.heap.vhdr v).npOrgAct else s.heap }
      | none => none
    | none => none
  | .restart lost junk xs =>
    if ∀ x ∈ xs, s.entries x.ptr = some (x.npOrgAct, x.wrtClk) then
      let m := xs.foldl (reconstruct s.wrtClkAt) (s.nvmInitHeap lost junk, s.front)
      some { s with
        heap := m.1
        front := m.2
        nvhdrOld := s.image lost
        copies := fun _ => none
        threads := fun _ => .idle }
    else none

/-- The first run on a fresh heap of NVM. -/
def Init (s : State) : Prop :=
  s.heap.genId = 1 ∧ (∀ a, s.heap.nvhdr a = ⟨none, 0⟩) ∧ s.heap.next = 0 ∧
    s.nvhdrOld = s.heap.nvhdr ∧ (∀ e, s.entries e = none) ∧
    (∀ e v, (s.front e).pActVhdr = some v → v.gen = 0) ∧ (∀ c, s.copies c = none) ∧
    ∀ t, s.threads t = .idle

/-- The first run, before anything is locked. -/
def firstRun : State where
  heap := ⟨1, fun _ => ⟨none, 0⟩, fun _ => ⟨none, none, .master 0, .master 0, 0⟩, 0⟩
  nvhdrOld := fun _ => ⟨none, 0⟩
  entries := fun _ => none
  front := fun _ => ⟨none, 0⟩
  copies := fun _ => none
  threads := fun _ => .idle

theorem firstRun_init : Init firstRun :=
  ⟨rfl, fun _ => rfl, rfl, rfl, fun _ => rfl, fun _ _ h => absurd h (Option.some_ne_none _).symm,
    fun _ => rfl, fun _ => rfl⟩

/-- What the DRAM holds after a restart. -/
def zeroed (_ : VhdrPtr) : ActVhdr := ⟨none, none, .master 0, .master 0, 0⟩

/-- The current master of a header of `a` is `a` or the object area of an entry of it. -/
def CurOk (s : State) (a : ℕ) (v : VhdrPtr) : Prop :=
  (s.heap.vhdr v).npCurAct = .master a ∨
    ∃ e clk, (s.heap.vhdr v).npCurAct = .entry e ∧ s.entries e = some (.master a, clk)

/-- Every object whose header pointer is one of this run has a header with this object as its
original master, and the master, its checkpoint entries and its copies lead back to it. -/
def HeadersOk (s : State) : Prop :=
  ∀ a v, (s.heap.nvhdr a).pActVhdr = some v → v.gen = s.heap.genId →
    (s.heap.vhdr v).npOrgAct = .master a ∧ CurOk s a v ∧
      getOrgActObj s (.act (.master a)) = .act (.master a) ∧
      (∀ e clk, s.entries e = some (.master a, clk) →
        getOrgActObj s (.act (.entry e)) = .act (.master a)) ∧
      ∀ c, s.copies c = some v → getOrgActObj s (.copy c) = .act (.master a)

/-- Every header pointer that `get_act_vhdr` reads from an object is one of this run. -/
def PointersOk (s : State) : Prop :=
  ∀ a v, getActVhdr s (.act a) = some v → v.gen = s.heap.genId

/-! ### Storing to the headers -/

@[simp] theorem npOrgAct_setCurAct (h : Heap) (v w : VhdrPtr) (a : Act) :
    ((h.setCurAct v a).vhdr w).npOrgAct = (h.vhdr w).npOrgAct := by
  by_cases hw : w = v
  · rw [hw]
    simp [Heap.setCurAct]
  · simp [Heap.setCurAct, Function.update_of_ne hw]

@[simp] theorem next_setCurAct (h : Heap) (v : VhdrPtr) (a : Act) :
    (h.setCurAct v a).next = h.next := rfl

theorem npCurAct_setCurAct_self (h : Heap) (v : VhdrPtr) (a : Act) :
    ((h.setCurAct v a).vhdr v).npCurAct = a := by
  simp [Heap.setCurAct]

theorem npCurAct_setCurAct_ne (h : Heap) {v w : VhdrPtr} (hw : w ≠ v) (a : Act) :
    ((h.setCurAct v a).vhdr w).npCurAct = (h.vhdr w).npCurAct := by
  simp [Heap.setCurAct, Function.update_of_ne hw]

/-- An allocation leaves the headers that exist. -/
theorem vhdr_allocActVhdr (h : Heap) (a : Act) {v : VhdrPtr} (hv : v.num < h.next) :
    (allocActVhdr h a).2.vhdr v = h.vhdr v := by
  have hne : v ≠ ⟨h.genId, h.next⟩ := by
    rintro rfl
    exact Nat.lt_irrefl _ hv
  simp only [allocActVhdr, Function.update_of_ne hne]

/-! ### Generations -/

variable {s s' : State} {act : Action}

/-- The headers in NVM are of the current or of an earlier run. -/
def BoundedBy (g : ℕ) (nvhdr : ℕ → ActNvhdr) : Prop :=
  ∀ a, (nvhdr a).genId ≤ g ∧ ∀ v, (nvhdr a).pActVhdr = some v → v.gen ≤ g

/-- What holds in every run: no header is of a later run, and the headers that the threads
are about to publish are of this one. -/
structure GenInv (s : State) : Prop where
  pos : 0 < s.heap.genId
  nvhdr : BoundedBy s.heap.genId s.heap.nvhdr
  old : BoundedBy s.heap.genId s.nvhdrOld
  thread : ∀ t obj g v, s.threads t = .allocated obj g v → v.gen = s.heap.genId

theorem BoundedBy.mono {g g' : ℕ} {n : ℕ → ActNvhdr} (h : BoundedBy g n) (hle : g ≤ g') :
    BoundedBy g' n :=
  fun a => ⟨le_trans (h a).1 hle, fun v hv => le_trans ((h a).2 v hv) hle⟩

theorem BoundedBy.update {g obj : ℕ} {n : ℕ → ActNvhdr} (h : BoundedBy g n) {v : VhdrPtr}
    (hv : v.gen = g) : BoundedBy g (Function.update n obj ⟨some v, g⟩) := by
  intro a
  by_cases ha : a = obj
  · rw [ha, Function.update_self]
    exact ⟨le_rfl, fun w hw => by rw [← Option.some_inj.mp hw, hv]⟩
  · rw [Function.update_of_ne ha]
    exact h a

theorem GenInv.init (h : Init s) : GenInv s := by
  obtain ⟨hg, hn, -, hold, -, -, -, ht⟩ := h
  have hb : BoundedBy s.heap.genId s.heap.nvhdr := by
    intro a
    rw [hn a]
    exact ⟨Nat.zero_le _, fun v hv => by cases hv⟩
  refine ⟨hg ▸ Nat.one_pos, hb, hold ▸ hb, ?_⟩
  intro t obj g v h
  rw [ht t] at h
  cases h

theorem GenInv.image (h : GenInv s) (lost : List ℕ) :
    BoundedBy s.heap.genId (s.image lost) := by
  intro a
  rw [State.image]
  split
  · exact h.old a
  · exact h.nvhdr a

/-- The headers while recovery replays entries of `P`: an object of which it has replayed one has
a header of this run, another one has what the crash has left, and the original master of every
header is an entry. -/
structure Rebuilt (g : ℕ) (img : ℕ → ActNvhdr) (P : EntryPtr → Prop) (visited : ℕ → Prop)
    (h : Heap) : Prop where
  genId : h.genId = g
  old : ∀ a, ¬ visited a → h.nvhdr a = img a
  new : ∀ a, visited a → ∃ v, h.nvhdr a = ⟨some v, g⟩ ∧ v.gen = g ∧ v.num < h.next
  hdr : ∀ v, v.gen = g → v.num < h.next → ∃ p, (h.vhdr v).npOrgAct = .entry p ∧ P p

section Rebuilt

variable {g : ℕ} {img : ℕ → ActNvhdr} {P : EntryPtr → Prop} {visited : ℕ → Prop} {h : Heap}

/-- Storing `np_cur_act` leaves the rest of the headers. -/
theorem Rebuilt.setCurAct (hr : Rebuilt g img P visited h) (v : VhdrPtr) (a : Act) :
    Rebuilt g img P visited (h.setCurAct v a) := by
  refine ⟨hr.genId, hr.old, hr.new, fun w hw hn => ?_⟩
  rw [npOrgAct_setCurAct]
  exact hr.hdr w hw hn

/-- Allocating a header leaves those that exist. -/
theorem Rebuilt.alloc (hr : Rebuilt g img P visited h) {p : EntryPtr} (hp : P p) :
    Rebuilt g img P visited (allocActVhdr h (.entry p)).2 := by
  refine ⟨hr.genId, hr.old, fun b hb => ?_, fun w hw hn => ?_⟩
  · obtain ⟨v, h1, h2, h3⟩ := hr.new b hb
    exact ⟨v, h1, h2, Nat.lt_succ_of_lt h3⟩
  · rcases Nat.lt_succ_iff_lt_or_eq.mp hn with hlt | heq
    · rw [vhdr_allocActVhdr _ _ hlt]
      exact hr.hdr w hw hlt
    · -- the new header
      have hwp : w = ⟨h.genId, h.next⟩ := by
        cases w
        rw [VhdrPtr.mk.injEq, hr.genId]
        exact ⟨hw, heq⟩
      exact ⟨p, by simp [allocActVhdr, hwp], hp⟩

/-- The header of an object is one that is allocated for an entry of it. -/
theorem Rebuilt.publish {a : ℕ} {p : EntryPtr} (hr : Rebuilt g img P visited h) (hp : P p) :
    Rebuilt g img P (fun b => visited b ∨ b = a) ((allocActVhdr h (.entry p)).2.setNvhdr a
      ⟨some (allocActVhdr h (.entry p)).1, h.genId⟩) := by
  have hr' := hr.alloc hp
  refine ⟨hr.genId, fun b hb => ?_, fun b hb => ?_, hr'.hdr⟩
  · rw [not_or] at hb
    exact (Function.update_of_ne hb.2 _ _).trans (hr.old b hb.1)
  · by_cases hba : b = a
    · subst hba
      refine ⟨⟨h.genId, h.next⟩, (Function.update_self _ _ _).trans ?_, hr.genId,
        Nat.lt_succ_self h.next⟩
      rw [← hr.genId]
      rfl
    · obtain ⟨w, h1, h2⟩ := hr'.new b (hb.resolve_right hba)
      exact ⟨w, (Function.update_of_ne hba _ _).trans h1, h2⟩

/-- One entry of the object `a` is replayed. -/
theorem Rebuilt.master {a w : ℕ} {clkAt : Act → ℕ} {p : EntryPtr}
    (himg : ∀ b, (img b).genId ≠ g) (hr : Rebuilt g img P visited h) (hp : P p) :
    Rebuilt g img P (fun b => visited b ∨ b = a)
      (reconstructVolatileHeader clkAt h ⟨p, a, w⟩) := by
  have hpub := hr.publish (a := a) hp
  rw [reconstructVolatileHeader]
  rcases hv : (h.nvhdr a).pActVhdr with _ | v
  · exact hpub
  · simp only
    by_cases hg : (h.nvhdr a).genId = h.genId
    · -- the header is one of this run: the object has been visited
      have hvis : visited a := by
        by_contra hn
        rw [hr.old a hn, hr.genId] at hg
        exact himg a hg
      have hsame : (fun b => visited b ∨ b = a) = visited := by
        funext b
        exact propext ⟨fun hb => hb.elim id fun hba => hba ▸ hvis, Or.inl⟩
      rw [if_neg (not_not.mpr hg), hsame]
      split
      · exact hr.setCurAct _ _
      · exact hr
    · rw [if_pos hg]
      exact hpub

/-- One entry is replayed that has another one as `np_org_act`: no object is visited. -/
theorem Rebuilt.entry {clkAt : Act → ℕ} {x : Replayed} {n : ActNvhdr}
    (hr : Rebuilt g img P visited h) (hp : P x.ptr) :
    Rebuilt g img P visited { reconstructVolatileHeader clkAt { h with nvhdr := fun _ => n } x with
      nvhdr := h.nvhdr } := by
  have halloc := hr.alloc hp
  rw [reconstructVolatileHeader]
  rcases n.pActVhdr with _ | v
  · exact halloc
  · simp only
    split
    · exact halloc
    · split
      · exact hr.setCurAct _ _
      · exact hr

/-- All entries are replayed. -/
theorem Rebuilt.foldl {m : Heap × (EntryPtr → ActNvhdr)} (clkAt : Act → ℕ)
    (himg : ∀ b, (img b).genId ≠ g) (hr : Rebuilt g img P visited m.1) {xs : List Replay}
    (hxs : ∀ x ∈ xs, P x.ptr) :
    Rebuilt g img P (fun a => visited a ∨ ∃ x ∈ xs, x.npOrgAct = .master a)
      (xs.foldl (reconstruct clkAt) m).1 := by
  induction xs generalizing m visited with
  | nil => simpa using hr
  | cons x xs ih =>
    have hx := hxs x List.mem_cons_self
    have hxs' : ∀ y ∈ xs, P y.ptr := fun y hy => hxs y (List.mem_cons_of_mem _ hy)
    rw [List.foldl_cons]
    rcases horg : x.npOrgAct with a | e
    · have hstep : Rebuilt g img P (fun b => visited b ∨ b = a) (reconstruct clkAt m x).1 := by
        rw [reconstruct, horg]
        exact hr.master himg hx
      have hall := ih hstep hxs'
      simp only [List.mem_cons, exists_eq_or_imp, horg, Act.master.injEq]
      simp only [or_assoc, eq_comm] at hall ⊢
      exact hall
    · have hstep : Rebuilt g img P visited (reconstruct clkAt m x).1 := by
        rw [reconstruct, horg]
        exact hr.entry hx
      simpa [horg] using ih hstep hxs'

end Rebuilt

/-- The headers after a restart. -/
theorem GenInv.recovered (h : GenInv s) (lost : List ℕ) (junk : VhdrPtr → ActVhdr)
    {xs : List Replay} (hxs : ∀ x ∈ xs, s.entries x.ptr = some (x.npOrgAct, x.wrtClk)) :
    Rebuilt (s.heap.genId + 1) (s.image lost) (fun p => s.entries p ≠ none)
      (fun a => ∃ x ∈ xs, x.npOrgAct = .master a)
      (xs.foldl (reconstruct s.wrtClkAt) (s.nvmInitHeap lost junk, s.front)).1 := by
  have himg : ∀ b, (s.image lost b).genId ≠ s.heap.genId + 1 := by
    intro b
    have := (h.image lost b).1
    omega
  have hstart : Rebuilt (s.heap.genId + 1) (s.image lost) (fun p => s.entries p ≠ none)
      (fun _ => False) (s.nvmInitHeap lost junk) :=
    ⟨rfl, fun _ _ => rfl, fun _ hf => hf.elim, fun v _ hn => absurd hn (Nat.not_lt_zero _)⟩
  simpa using hstart.foldl (m := (s.nvmInitHeap lost junk, s.front)) s.wrtClkAt himg
    fun x hx => by rw [hxs x hx]; exact Option.some_ne_none _

theorem step_restart {lost : List ℕ} {junk : VhdrPtr → ActVhdr} {xs : List Replay}
    (hs : step s (.restart lost junk xs) = some s') :
    (∀ x ∈ xs, s.entries x.ptr = some (x.npOrgAct, x.wrtClk)) ∧ s' = { s with
      heap := (xs.foldl (reconstruct s.wrtClkAt) (s.nvmInitHeap lost junk, s.front)).1
      front := (xs.foldl (reconstruct s.wrtClkAt) (s.nvmInitHeap lost junk, s.front)).2
      nvhdrOld := s.image lost
      copies := fun _ => none
      threads := fun _ => .idle } := by
  simp only [step, Option.ite_none_right_eq_some, Option.some_inj] at hs
  exact ⟨hs.1, hs.2.symm⟩

theorem GenInv.restart (h : GenInv s) {lost : List ℕ} {junk : VhdrPtr → ActVhdr}
    {xs : List Replay} (hs : step s (.restart lost junk xs) = some s') : GenInv s' := by
  obtain ⟨hxs, rfl⟩ := step_restart hs
  obtain ⟨hg, hold, hnew, -⟩ := h.recovered lost junk hxs
  have himg : BoundedBy (s.heap.genId + 1) (s.image lost) :=
    (h.image lost).mono (Nat.le_succ _)
  refine ⟨?_, ?_, ?_, fun t obj g v ht => by cases ht⟩
  · simp only [hg]
    exact Nat.succ_pos _
  · intro a
    simp only [hg]
    by_cases ha : ∃ x ∈ xs, x.npOrgAct = .master a
    · obtain ⟨v, hv, hvg, -⟩ := hnew a ha
      rw [hv]
      exact ⟨le_rfl, fun w hw => by rw [← Option.some_inj.mp hw, hvg]⟩
    · rw [hold a ha]
      exact himg a
  · simp only [hg]
    exact himg

/-! ### What a step does -/

theorem step_load {t obj : ℕ} (hs : step s (.load t obj) = some s') :
    s' = { s with
      threads := Function.update s.threads t (.loaded obj (s.heap.nvhdr obj).genId) } := by
  simp only [step, Option.ite_none_right_eq_some, Option.some_inj] at hs
  exact hs.2.symm

theorem step_alloc {t : ℕ} (hs : step s (.alloc t) = some s') :
    ∃ obj g, s' = { s with
      heap := (allocActVhdr s.heap (.master obj)).2
      threads := Function.update s.threads t
        (.allocated obj g ⟨s.heap.genId, s.heap.next⟩) } := by
  simp only [step] at hs
  split at hs
  · exact ⟨_, _, (Option.some_inj.mp hs).symm⟩
  · cases hs

theorem step_cas {t : ℕ} (hs : step s (.cas t) = some s') :
    ∃ obj g v, s.threads t = .allocated obj g v ∧
      (s' = { s with
          heap := s.heap.setNvhdr obj ⟨some v, s.heap.genId⟩
          threads := Function.update s.threads t .idle } ∨
        s' = { s with threads := Function.update s.threads t .idle }) := by
  simp only [step] at hs
  split at hs
  · rename_i obj g v hpc
    obtain rfl := Option.some_inj.mp hs
    refine ⟨obj, g, v, hpc, ?_⟩
    split
    · exact .inl rfl
    · exact .inr rfl
  · cases hs

theorem step_lock {c : ℕ} {obj : Obj} (hs : step s (.lock c obj) = some s') :
    ∃ v, getActVhdr s obj = some v ∧
      s' = { s with copies := Function.update s.copies c (some v) } := by
  simp only [step] at hs
  split at hs
  · rename_i v _ hv
    exact ⟨v, hv, (Option.some_inj.mp hs).symm⟩
  · cases hs

theorem step_enq {c w k n : ℕ} {e : EntryPtr} (hs : step s (.enq c e w k n) = some s') :
    ∃ v, s.copies c = some v ∧ s.entries e = none ∧
      s' = { s with
        heap := s.heap.setCurAct v (.entry e)
        entries := Function.update s.entries e (some ((s.heap.vhdr v).npOrgAct, w))
        front := Function.update s.front e (frontOf n k) } := by
  simp only [step] at hs
  split at hs
  · rename_i v hv he
    exact ⟨v, hv, he, (Option.some_inj.mp hs).symm⟩
  · cases hs

theorem step_writeback {e : EntryPtr} (hs : step s (.writeback e) = some s') :
    s' = s ∨ ∃ v, s' = { s with heap := s.heap.setCurAct v (s.heap.vhdr v).npOrgAct } := by
  simp only [step] at hs
  split at hs
  · split at hs
    · rename_i v _
      obtain rfl := Option.some_inj.mp hs
      split
      · exact .inr ⟨v, rfl⟩
      · exact .inl rfl
    · cases hs
  · cases hs

/-- A property of the headers that threads are about to publish, after a thread has moved. -/
theorem allocated_update {threads : ℕ → AllocPc} {P : ℕ → VhdrPtr → Prop}
    (h : ∀ t obj g v, threads t = .allocated obj g v → P obj v) (t : ℕ) {pc : AllocPc}
    (hpc : ∀ obj g v, pc = .allocated obj g v → P obj v) :
    ∀ t' obj g v, Function.update threads t pc t' = .allocated obj g v → P obj v := by
  intro t' obj g v ht
  by_cases heq : t' = t
  · rw [heq, Function.update_self] at ht
    exact hpc obj g v ht
  · rw [Function.update_of_ne heq] at ht
    exact h t' obj g v ht

theorem GenInv.step (h : GenInv s) (hs : step s act = some s') : GenInv s' := by
  cases act with
  | load t obj =>
    obtain rfl := step_load hs
    exact ⟨h.pos, h.nvhdr, h.old,
      allocated_update (P := fun _ v => v.gen = s.heap.genId) h.thread t nofun⟩
  | alloc t =>
    obtain ⟨obj, g, rfl⟩ := step_alloc hs
    refine ⟨h.pos, h.nvhdr, h.old,
      allocated_update (P := fun _ v => v.gen = s.heap.genId) h.thread t ?_⟩
    rintro obj' g' v' ⟨⟩
    rfl
  | cas t =>
    obtain ⟨obj, g, v, hpc, rfl | rfl⟩ := step_cas hs
    · exact ⟨h.pos, h.nvhdr.update (h.thread t obj g v hpc), h.old,
        allocated_update (P := fun _ v => v.gen = s.heap.genId) h.thread t nofun⟩
    · exact ⟨h.pos, h.nvhdr, h.old,
        allocated_update (P := fun _ v => v.gen = s.heap.genId) h.thread t nofun⟩
  | lock c obj =>
    obtain ⟨v, -, rfl⟩ := step_lock hs
    exact ⟨h.pos, h.nvhdr, h.old, h.thread⟩
  | enq c e w k n =>
    obtain ⟨v, -, -, rfl⟩ := step_enq hs
    exact ⟨h.pos, h.nvhdr, h.old, h.thread⟩
  | writeback e =>
    obtain rfl | ⟨v, rfl⟩ := step_writeback hs
    · exact h
    · exact ⟨h.pos, h.nvhdr, h.old, h.thread⟩
  | restart lost junk xs => exact h.restart hs

/-! ### Runs that replay nothing -/

/-- No restart finds a checkpoint entry to replay. -/
def NoReplay (_ : State) : Action → Prop
  | .restart _ _ xs => xs = []
  | _ => True

instance (s : State) : (a : Action) → Decidable (NoReplay s a)
  | .restart _ _ xs => inferInstanceAs (Decidable (xs = []))
  | .load .. | .alloc _ | .cas _ | .lock .. | .enq .. | .writeback _ =>
    inferInstanceAs (Decidable True)

/-- The headers of this run have an original master, which is the object they are published
for. -/
structure HdrInv (s : State) : Prop where
  gen : GenInv s
  hdr : ∀ v, v.gen = s.heap.genId → v.num < s.heap.next →
    ∃ a, (s.heap.vhdr v).npOrgAct = .master a ∧ CurOk s a v
  pub : ∀ a v, (s.heap.nvhdr a).pActVhdr = some v → v.gen = s.heap.genId →
    v.num < s.heap.next ∧ (s.heap.vhdr v).npOrgAct = .master a
  copy : ∀ c v, s.copies c = some v → v.gen = s.heap.genId → v.num < s.heap.next
  thread : ∀ t obj g v, s.threads t = .allocated obj g v →
    v.num < s.heap.next ∧ (s.heap.vhdr v).npOrgAct = .master obj
  front : ∀ e v, (s.front e).pActVhdr = some v → v.gen = 0

theorem HdrInv.init (h : Init s) : HdrInv s := by
  have hgen := GenInv.init h
  obtain ⟨-, hn, hnext, -, -, hf, hc, ht⟩ := h
  refine ⟨hgen, ?_, ?_, ?_, ?_, hf⟩
  · intro v _ hv
    omega
  · intro a v hv
    rw [hn a] at hv
    cases hv
  · intro c v hv
    rw [hc c] at hv
    cases hv
  · intro t obj g v hv
    rw [ht t] at hv
    cases hv

/-- The pointer that `get_act_vhdr` returns is to a header that was allocated. -/
theorem HdrInv.getActVhdr (h : HdrInv s) {obj : Obj} {v : VhdrPtr}
    (hv : getActVhdr s obj = some v) (hg : v.gen = s.heap.genId) : v.num < s.heap.next := by
  cases obj with
  | copy c => exact h.copy c v hv hg
  | act a =>
    cases a with
    | master a => exact (h.pub a v hv hg).1
    | entry e =>
      rw [Vhdr.getActVhdr] at hv
      split at hv
      · rename_i org _ _
        cases org with
        | master a => exact (h.pub a v hv hg).1
        | entry e' =>
          -- what is in front of an entry is no pointer of a run
          have h0 := h.front e' v hv
          have := h.gen.pos
          omega
      · cases hv

theorem HdrInv.headersOk (h : HdrInv s) : HeadersOk s := by
  intro a v hv hg
  obtain ⟨hnum, horg⟩ := h.pub a v hv hg
  obtain ⟨a', horg', hcur⟩ := h.hdr v hg hnum
  have haa : a' = a := by
    rw [horg] at horg'
    exact (Act.master.inj horg').symm
  subst haa
  refine ⟨horg, hcur, ?_, ?_, ?_⟩
  · rw [getOrgActObj, Vhdr.getActVhdr, hv]
    simp only [horg]
  · intro e clk he
    rw [getOrgActObj, Vhdr.getActVhdr, he]
    simp only [State.actNvhdr, hv, horg]
  · intro c hc
    rw [getOrgActObj, Vhdr.getActVhdr, hc]
    simp only [horg]

theorem HdrInv.alloc (h : HdrInv s) {t : ℕ} (hs : step s (.alloc t) = some s') :
    HdrInv s' := by
  have hgen := h.gen.step hs
  obtain ⟨obj, g, rfl⟩ := step_alloc hs
  refine ⟨hgen, ?_, ?_, ?_, ?_, h.front⟩
  · intro v hg hnum
    rcases Nat.lt_succ_iff_lt_or_eq.mp hnum with hlt | heq
    · obtain ⟨a, horg, hcur⟩ := h.hdr v hg hlt
      simp only [CurOk, vhdr_allocActVhdr _ _ hlt]
      exact ⟨a, horg, hcur⟩
    · -- the new header
      have hv : v = ⟨s.heap.genId, s.heap.next⟩ := by
        cases v
        simp only [VhdrPtr.mk.injEq]
        exact ⟨hg, heq⟩
      subst hv
      refine ⟨obj, ?_, .inl ?_⟩ <;> simp [allocActVhdr]
  · intro a v hv hg
    obtain ⟨h1, h2⟩ := h.pub a v hv hg
    refine ⟨Nat.lt_succ_of_lt h1, ?_⟩
    simp only [vhdr_allocActVhdr _ _ h1]
    exact h2
  · intro c v hv hg
    exact Nat.lt_succ_of_lt (h.copy c v hv hg)
  · refine allocated_update (P := fun obj' v => v.num < s.heap.next + 1 ∧
      ((allocActVhdr s.heap (.master obj)).2.vhdr v).npOrgAct = .master obj') ?_ t ?_
    · intro t' obj' g' v ht
      obtain ⟨h1, h2⟩ := h.thread t' obj' g' v ht
      refine ⟨Nat.lt_succ_of_lt h1, ?_⟩
      rw [vhdr_allocActVhdr _ _ h1]
      exact h2
    · rintro obj' g' v ⟨⟩
      exact ⟨Nat.lt_succ_self _, by simp [allocActVhdr]⟩

theorem HdrInv.enq (h : HdrInv s) {c w k n : ℕ} {e : EntryPtr}
    (hs : step s (.enq c e w k n) = some s') : HdrInv s' := by
  have hgen := h.gen.step hs
  obtain ⟨v, hc, he, rfl⟩ := step_enq hs
  refine ⟨hgen, ?_, ?_, h.copy, ?_, ?_⟩
  · intro v' hg hnum
    obtain ⟨a, horg, hcur⟩ := h.hdr v' hg hnum
    refine ⟨a, by simpa using horg, ?_⟩
    by_cases hv : v' = v
    · subst hv
      refine .inr ⟨e, w, npCurAct_setCurAct_self _ _ _, ?_⟩
      simp only [Function.update_self, horg]
    · simp only [CurOk, npCurAct_setCurAct_ne _ hv]
      refine hcur.imp_right ?_
      rintro ⟨e', clk, h1, h2⟩
      have hne : e' ≠ e := by
        rintro rfl
        rw [he] at h2
        cases h2
      exact ⟨e', clk, h1, by rw [Function.update_of_ne hne]; exact h2⟩
  · intro a v' hv hg
    simpa using h.pub a v' hv hg
  · intro t obj g v' ht
    simpa using h.thread t obj g v' ht
  · intro e' v' hf
    by_cases heq : e' = e
    · simp only [heq, Function.update_self, frontOf, Option.some_inj] at hf
      rw [← hf]
    · simp only [Function.update_of_ne heq] at hf
      exact h.front e' v' hf

theorem HdrInv.writeback (h : HdrInv s) {e : EntryPtr}
    (hs : step s (.writeback e) = some s') : HdrInv s' := by
  have hgen := h.gen.step hs
  obtain rfl | ⟨v, rfl⟩ := step_writeback hs
  · exact h
  refine ⟨hgen, ?_, ?_, h.copy, ?_, h.front⟩
  · intro v' hg hnum
    obtain ⟨a, horg, hcur⟩ := h.hdr v' hg hnum
    refine ⟨a, by simpa using horg, ?_⟩
    by_cases hv : v' = v
    · subst hv
      exact .inl ((npCurAct_setCurAct_self _ _ _).trans horg)
    · simp only [CurOk, npCurAct_setCurAct_ne _ hv]
      exact hcur
  · intro a v' hv hg
    simpa using h.pub a v' hv hg
  · intro t obj g v' ht
    simpa using h.thread t obj g v' ht

theorem HdrInv.step (h : HdrInv s) (hok : NoReplay s act) (hs : step s act = some s') :
    HdrInv s' := by
  have hgen := h.gen.step hs
  cases act with
  | load t obj =>
    obtain rfl := step_load hs
    exact ⟨hgen, h.hdr, h.pub, h.copy,
      allocated_update (P := fun obj v => v.num < s.heap.next ∧ _ = Act.master obj)
        h.thread t (fun _ _ _ hpc => by cases hpc), h.front⟩
  | alloc t => exact h.alloc hs
  | cas t =>
    obtain ⟨obj, g, v, hpc, rfl | rfl⟩ := step_cas hs
    · refine ⟨hgen, h.hdr, ?_, h.copy,
        allocated_update (P := fun obj v => v.num < s.heap.next ∧ _ = Act.master obj)
          h.thread t (fun _ _ _ hpc => by cases hpc), h.front⟩
      intro a v' hv hg
      by_cases ha : a = obj
      · simp only [Heap.setNvhdr, ha, Function.update_self, Option.some_inj] at hv
        subst hv
        rw [ha]
        exact h.thread t obj g v hpc
      · simp only [Heap.setNvhdr, Function.update_of_ne ha] at hv
        exact h.pub a v' hv hg
    · exact ⟨hgen, h.hdr, h.pub, h.copy,
        allocated_update (P := fun obj v => v.num < s.heap.next ∧ _ = Act.master obj)
          h.thread t (fun _ _ _ hpc => by cases hpc), h.front⟩
  | lock c obj =>
    obtain ⟨v, hv, rfl⟩ := step_lock hs
    refine ⟨hgen, h.hdr, h.pub, ?_, h.thread, h.front⟩
    intro c' v' hc hg
    by_cases heq : c' = c
    · simp only [heq, Function.update_self, Option.some_inj] at hc
      subst hc
      exact h.getActVhdr hv hg
    · simp only [Function.update_of_ne heq] at hc
      exact h.copy c' v' hc hg
  | enq c e w k n => exact h.enq hs
  | writeback e => exact h.writeback hs
  | restart lost junk xs =>
    obtain rfl : xs = [] := hok
    obtain ⟨-, rfl⟩ := step_restart hs
    refine ⟨hgen, ?_, ?_, fun _ _ hc => (by cases hc), fun _ _ _ _ ht => (by cases ht), h.front⟩
    · intro v _ hnum
      exact absurd hnum (Nat.not_lt_zero _)
    · -- the pointers in NVM are those of earlier runs
      intro a v hv hg
      have := (h.gen.image lost a).2 v hv
      simp only [List.foldl_nil, State.nvmInitHeap] at hg
      omega

/-- In every run that replays no checkpoint entry the headers are those of their objects, and
a restart that replays one of an object makes a header that is not. -/
theorem headers_of_noReplay (h : Run.Reach Init step NoReplay s) :
    HeadersOk s ∧ ∀ lost junk xs s', (∃ x ∈ xs, ∃ a, x.npOrgAct = .master a) →
      step s (.restart lost junk xs) = some s' → ¬ HeadersOk s' := by
  have hinv : HdrInv s := h.invariant (fun _ => HdrInv.init) fun _ _ _ hi hok hs => hi.step hok hs
  refine ⟨hinv.headersOk, ?_⟩
  rintro lost junk xs s' ⟨x, hx, a, ha⟩ hs hok
  obtain ⟨hxs, rfl⟩ := step_restart hs
  have hr := hinv.gen.recovered lost junk hxs
  obtain ⟨v, hv, hvg, hn⟩ := hr.new a ⟨x, hx, ha⟩
  obtain ⟨p, horg, -⟩ := hr.hdr v hvg hn
  have h1 := (hok a v (by rw [hv]) (hvg.trans hr.genId.symm)).1
  rw [horg] at h1
  cases h1

/-- Two threads race for the header of object 5; one of them locks it and its copy is
checkpointed.  The next run replays nothing, and locks object 6. -/
theorem headers_of_noReplay_race :
    ∃ s, Run.Reach Init step NoReplay s ∧ (s.heap.nvhdr 6).pActVhdr = some ⟨2, 0⟩ ∧
      HeadersOk s := by
  have hrun : (Run.exec step NoReplay firstRun
      [.load 0 5, .load 1 5, .alloc 1, .alloc 0, .cas 0, .cas 1,
        .lock 0 (.act (.master 5)), .enq 0 ⟨0, 0⟩ 10 64 256, .restart [] zeroed [], .load 0 6,
        .alloc 0, .cas 0]).map
      (fun s => decide ((s.heap.nvhdr 6).pActVhdr = some ⟨2, 0⟩)) = some true := by decide
  obtain ⟨s, hr, hd⟩ : ∃ s, Run.Reach Init step NoReplay s ∧ _ :=
    Run.Reach.exists_of_exec (.init firstRun_init) hrun
  exact ⟨s, hr, hd, (headers_of_noReplay hr).1⟩

/-- The copy of object 5 is checkpointed, and the next run replays the entry: the header of
object 5 has the entry as its original master. -/
theorem recovery_wrong_master : ¬ ∀ s, Run.Reach Init step Run.any s → HeadersOk s := by
  intro h
  have hrun : (Run.exec step Run.any firstRun
      [.load 0 5, .alloc 0, .cas 0, .lock 0 (.act (.master 5)), .enq 0 ⟨0, 0⟩ 10 64 256,
        .restart [] zeroed [⟨⟨0, 0⟩, .master 5, 10⟩]]).map
      (fun s => decide ((s.heap.nvhdr 5).pActVhdr = some ⟨2, 0⟩ ∧ s.heap.genId = 2 ∧
        (s.heap.vhdr ⟨2, 0⟩).npOrgAct = .entry ⟨0, 0⟩)) = some true := by decide
  obtain ⟨s, hs, hd⟩ := Option.map_eq_some_iff.mp hrun
  obtain ⟨hv, hg, horg⟩ := of_decide_eq_true hd
  have hok := h s (.of_exec (.init firstRun_init) hs) 5 ⟨2, 0⟩ hv hg.symm
  rw [horg] at hok
  cases hok.1

/-! ### Runs that replay an entry of every object with a header -/

/-- At a restart every object that the crash leaves with a pointer to a header has an entry that
is replayed, and no copy is checkpointed whose header recovery has made. -/
def Covered (s : State) : Action → Prop
  | .restart lost _ xs =>
    ∀ a, (s.image lost a).pActVhdr ≠ none → ∃ x ∈ xs, x.npOrgAct = .master a
  | .enq c _ _ _ _ => ∀ v, s.copies c = some v → ∃ a, (s.heap.vhdr v).npOrgAct = .master a
  | _ => True

/-- The pointers in NVM are to headers of this run, and the entries have objects as their
original masters, although the headers need not. -/
structure PtrInv (s : State) : Prop where
  gen : GenInv s
  pub : ∀ a v, (s.heap.nvhdr a).pActVhdr = some v → v.gen = s.heap.genId ∧ v.num < s.heap.next
  copy : ∀ c v, s.copies c = some v → v.gen = s.heap.genId ∧ v.num < s.heap.next
  thread : ∀ t obj g v, s.threads t = .allocated obj g v → v.num < s.heap.next
  hdr : ∀ v, v.gen = s.heap.genId → v.num < s.heap.next →
    ∀ p, (s.heap.vhdr v).npOrgAct = .entry p → s.entries p ≠ none
  org : ∀ e o w, s.entries e = some (o, w) → ∃ a, o = .master a
  front : ∀ e, s.entries e ≠ none → ∃ n, (s.front e).pActVhdr = some ⟨0, n⟩

/-- A pointer that `get_act_vhdr` returns is to a header of this run. -/
theorem PtrInv.getActVhdr (h : PtrInv s) {obj : Obj} {v : VhdrPtr}
    (hv : getActVhdr s obj = some v) : v.gen = s.heap.genId ∧ v.num < s.heap.next := by
  match obj with
  | .copy c => exact h.copy c v hv
  | .act (.master a) => exact h.pub a v hv
  | .act (.entry e) =>
    rw [Vhdr.getActVhdr] at hv
    split at hv
    · rename_i org w he
      obtain ⟨a, rfl⟩ := h.org e org w he
      exact h.pub a v hv
    · contradiction

theorem PtrInv.pointersOk (h : PtrInv s) : PointersOk s := fun _ _ hv => (h.getActVhdr hv).1

theorem PtrInv.init (h : Init s) : PtrInv s := by
  have hgen := GenInv.init h
  obtain ⟨-, hn, hnext, -, he, -, hc, ht⟩ := h
  refine ⟨hgen, fun a v hv => ?_, fun c v hv => ?_, fun t obj g v hv => ?_, fun v _ hv => ?_,
    fun e o w hv => ?_, fun e hv => absurd (he e) hv⟩
  · rw [hn a] at hv
    contradiction
  · rw [hc c] at hv
    contradiction
  · rw [ht t] at hv
    contradiction
  · omega
  · rw [he e] at hv
    contradiction

/-- Storing `np_cur_act` of a header. -/
theorem PtrInv.setCurAct {v : VhdrPtr} {a : Act} (h : PtrInv s)
    (hg : GenInv { s with heap := s.heap.setCurAct v a }) :
    PtrInv { s with heap := s.heap.setCurAct v a } := by
  refine ⟨hg, h.pub, h.copy, h.thread, fun w hw hn p hp => ?_, h.org, h.front⟩
  simp only [npOrgAct_setCurAct] at hp
  exact h.hdr w hw hn p hp

/-- An allocation by `try_alloc_act_vhdr`. -/
theorem PtrInv.alloc (h : PtrInv s) {t : ℕ} (hs : Vhdr.step s (.alloc t) = some s') :
    PtrInv s' := by
  have hgen := h.gen.step hs
  obtain ⟨obj, g, rfl⟩ := step_alloc hs
  refine ⟨hgen, fun a v hv => ?_, fun c v hv => ?_, ?_, fun v hg hn p hp => ?_, h.org, h.front⟩
  · obtain ⟨h1, h2⟩ := h.pub a v hv
    exact ⟨h1, Nat.lt_succ_of_lt h2⟩
  · obtain ⟨h1, h2⟩ := h.copy c v hv
    exact ⟨h1, Nat.lt_succ_of_lt h2⟩
  · refine allocated_update (P := fun _ v => v.num < s.heap.next + 1)
      (fun t' obj' g' v ht => Nat.lt_succ_of_lt (h.thread t' obj' g' v ht)) t ?_
    rintro obj' g' v ⟨⟩
    exact Nat.lt_succ_self _
  · rcases Nat.lt_succ_iff_lt_or_eq.mp hn with hlt | heq
    · simp only [vhdr_allocActVhdr _ _ hlt] at hp
      exact h.hdr v hg hlt p hp
    · -- the new header has the object as its original master
      have hv : v = ⟨s.heap.genId, s.heap.next⟩ := by
        cases v
        rw [VhdrPtr.mk.injEq]
        exact ⟨hg, heq⟩
      simp [allocActVhdr, hv] at hp

/-- A checkpoint entry of a copy whose header has an object as its original master. -/
theorem PtrInv.enq (h : PtrInv s) {c w k n : ℕ} {e : EntryPtr}
    (hok : Covered s (.enq c e w k n)) (hs : Vhdr.step s (.enq c e w k n) = some s') :
    PtrInv s' := by
  have hgen := h.gen.step hs
  obtain ⟨v, hc, he, rfl⟩ := step_enq hs
  obtain ⟨a, ha⟩ := hok v hc
  refine ⟨hgen, h.pub, h.copy, h.thread, fun v' hg hn p hp => ?_, fun e' o w' he' => ?_,
    fun e' he' => ?_⟩
  · simp only [npOrgAct_setCurAct] at hp
    by_cases hpe : p = e
    · simp [hpe]
    · simp only [Function.update_of_ne hpe]
      exact h.hdr v' hg hn p hp
  · by_cases hee : e' = e
    · simp only [hee, Function.update_self, Option.some_inj, Prod.mk.injEq] at he'
      exact ⟨a, he'.1.symm.trans ha⟩
    · simp only [Function.update_of_ne hee] at he'
      exact h.org e' o w' he'
  · by_cases hee : e' = e
    · exact ⟨n, by simp [hee, frontOf]⟩
    · simp only [Function.update_of_ne hee] at he' ⊢
      exact h.front e' he'

/-- A checkpoint entry of a copy whose header recovery has made: what `get_act_vhdr` reads in
front of the object area of the original master is no pointer of this run. -/
theorem PtrInv.enq_iff (h : PtrInv s) {c w k n : ℕ} {e : EntryPtr}
    (hs : Vhdr.step s (.enq c e w k n) = some s') :
    PointersOk s' ↔ Covered s (.enq c e w k n) := by
  refine ⟨fun hok v hc => ?_, fun hok => (h.enq hok hs).pointersOk⟩
  obtain ⟨v', hc', he, rfl⟩ := step_enq hs
  rw [hc, Option.some_inj] at hc'
  subst hc'
  rcases horg : (s.heap.vhdr v).npOrgAct with a | p
  · exact ⟨a, rfl⟩
  · obtain ⟨hg, hn⟩ := h.copy c v hc
    have hp := h.hdr v hg hn p horg
    have hpe : p ≠ e := fun heq => hp (heq ▸ he)
    obtain ⟨m, hm⟩ := h.front p hp
    -- the new entry leads to the bytes in front of the entry `p`
    have h0 := hok (.entry e) ⟨0, m⟩ (by
      simp only [Vhdr.getActVhdr, Function.update_self, horg, State.actNvhdr,
        Function.update_of_ne hpe]
      exact hm)
    have hpos := h.gen.pos
    simp only [Heap.setCurAct] at h0
    omega

/-- Where all entries have objects as their original masters, recovery stores in front of
none. -/
theorem front_foldl {clkAt : Act → ℕ} {xs : List Replay} (m : Heap × (EntryPtr → ActNvhdr))
    (hxs : ∀ x ∈ xs, ∃ a, x.npOrgAct = .master a) : (xs.foldl (reconstruct clkAt) m).2 = m.2 := by
  induction xs generalizing m with
  | nil => rfl
  | cons x xs ih =>
    obtain ⟨a, ha⟩ := hxs x List.mem_cons_self
    rw [List.foldl_cons, ih _ fun y hy => hxs y (List.mem_cons_of_mem _ hy), reconstruct, ha]

theorem PtrInv.restart (h : PtrInv s) {lost : List ℕ} {junk : VhdrPtr → ActVhdr}
    {xs : List Replay} (hok : Covered s (.restart lost junk xs))
    (hs : Vhdr.step s (.restart lost junk xs) = some s') : PtrInv s' := by
  have hgen := h.gen.restart hs
  obtain ⟨hxs, rfl⟩ := step_restart hs
  obtain ⟨hg, hold, hnew, hhdr⟩ := h.gen.recovered lost junk hxs
  refine ⟨hgen, fun a v hv => ?_, fun c v hv => (by contradiction),
    fun t obj g v hv => (by contradiction), fun v hv hn p hp => ?_, h.org, ?_⟩
  · by_cases ha : ∃ x ∈ xs, x.npOrgAct = .master a
    · obtain ⟨w, hw, hwg, hn⟩ := hnew a ha
      simp only [hw, Option.some_inj] at hv
      subst hv
      exact ⟨hwg.trans hg.symm, hn⟩
    · simp only [hold a ha] at hv
      exact absurd (hok a (by rw [hv]; exact Option.some_ne_none _)) ha
  · obtain ⟨q, hq, hP⟩ := hhdr v (hv.trans hg) hn
    simp only [hq, Act.entry.injEq] at hp
    exact hp ▸ hP
  · have hmaster : ∀ x ∈ xs, ∃ a, x.npOrgAct = .master a := fun x hx => h.org _ _ _ (hxs x hx)
    simp only [front_foldl _ hmaster]
    exact h.front

/-- After a restart every object with a replayed entry has a header of the new run, and the
others have none, if and only if the restart covers them all. -/
theorem PtrInv.restart_iff (h : PtrInv s) {lost : List ℕ} {junk : VhdrPtr → ActVhdr}
    {xs : List Replay} (hs : Vhdr.step s (.restart lost junk xs) = some s') :
    (PointersOk s' ∧ ∀ a, (∀ x ∈ xs, x.npOrgAct ≠ .master a) →
      Vhdr.getActVhdr s' (.act (.master a)) = none) ↔ Covered s (.restart lost junk xs) := by
  have hold : ∀ a, (∀ x ∈ xs, x.npOrgAct ≠ .master a) → s'.heap.nvhdr a = s.image lost a := by
    obtain ⟨hxs, rfl⟩ := step_restart hs
    exact fun a ha => (h.gen.recovered lost junk hxs).old a fun ⟨x, hx, heq⟩ => ha x hx heq
  constructor
  · rintro ⟨-, hnone⟩ a ha
    by_contra hne
    have hne' : ∀ x ∈ xs, x.npOrgAct ≠ .master a := fun x hx heq => hne ⟨x, hx, heq⟩
    rw [← hold a hne'] at ha
    exact ha (hnone a hne')
  · intro hcov
    refine ⟨(h.restart hcov hs).pointersOk, fun a ha => ?_⟩
    show (s'.heap.nvhdr a).pActVhdr = none
    rw [hold a ha]
    by_contra hne
    obtain ⟨x, hx, heq⟩ := hcov a hne
    exact ha x hx heq

theorem PtrInv.step (h : PtrInv s) (hok : Covered s act) (hs : Vhdr.step s act = some s') :
    PtrInv s' := by
  have hgen := h.gen.step hs
  cases act with
  | load t obj =>
    obtain rfl := step_load hs
    exact ⟨hgen, h.pub, h.copy,
      allocated_update (P := fun _ v => v.num < s.heap.next) h.thread t nofun, h.hdr, h.org,
      h.front⟩
  | alloc t => exact h.alloc hs
  | cas t =>
    obtain ⟨obj, g, v, hpc, rfl | rfl⟩ := step_cas hs
    · refine ⟨hgen, fun a v' hv => ?_, h.copy,
        allocated_update (P := fun _ v => v.num < s.heap.next) h.thread t nofun, h.hdr, h.org,
        h.front⟩
      by_cases ha : a = obj
      · simp only [Heap.setNvhdr, ha, Function.update_self, Option.some_inj] at hv
        subst hv
        exact ⟨h.gen.thread t obj g v hpc, h.thread t obj g v hpc⟩
      · simp only [Heap.setNvhdr, Function.update_of_ne ha] at hv
        exact h.pub a v' hv
    · exact ⟨hgen, h.pub, h.copy,
        allocated_update (P := fun _ v => v.num < s.heap.next) h.thread t nofun, h.hdr, h.org,
        h.front⟩
  | lock c obj =>
    obtain ⟨v, hv, rfl⟩ := step_lock hs
    refine ⟨hgen, h.pub, fun c' v' hc => ?_, h.thread, h.hdr, h.org, h.front⟩
    by_cases heq : c' = c
    · simp only [heq, Function.update_self, Option.some_inj] at hc
      subst hc
      exact h.getActVhdr hv
    · simp only [Function.update_of_ne heq] at hc
      exact h.copy c' v' hc
  | enq c e w k n => exact h.enq hok hs
  | writeback e =>
    obtain rfl | ⟨v, rfl⟩ := step_writeback hs
    · exact h
    · exact h.setCurAct hgen
  | restart lost junk xs => exact h.restart hok hs

/-- In every run whose restarts replay an entry of every object with a header pointer and in
which no copy is checkpointed whose header recovery has made, `get_act_vhdr` returns headers of
the current run only.  From such a run a restart keeps it so, with no header for the objects
that it replays no entry of, if and only if it is of this kind, and so does a checkpoint. -/
theorem pointers_of_covered (h : Run.Reach Init step Covered s) :
    PointersOk s ∧
      (∀ lost junk xs s', step s (.restart lost junk xs) = some s' →
        ((PointersOk s' ∧ ∀ a, (∀ x ∈ xs, x.npOrgAct ≠ .master a) →
          getActVhdr s' (.act (.master a)) = none) ↔ Covered s (.restart lost junk xs))) ∧
      ∀ c e w ckptSClk size s', step s (.enq c e w ckptSClk size) = some s' →
        (PointersOk s' ↔ Covered s (.enq c e w ckptSClk size)) := by
  have hinv : PtrInv s := h.invariant (fun _ => PtrInv.init) fun _ _ _ hi hok hs => hi.step hok hs
  exact ⟨hinv.pointersOk, fun lost junk xs s' hs => hinv.restart_iff hs,
    fun c e w k n s' hs => hinv.enq_iff hs⟩

/-- Object 5 is locked and checkpointed, and the next run replays the entry. -/
theorem pointers_of_covered_replay :
    ∃ s, Run.Reach Init step Covered s ∧ s.heap.genId = 2 ∧
      (s.heap.nvhdr 5).pActVhdr = some ⟨2, 0⟩ ∧ PointersOk s := by
  have h1 : Run.Reach Init step Covered _ := .step (.init firstRun_init) (i := .load 0 5)
    trivial rfl
  have h2 : Run.Reach Init step Covered _ := h1.step (i := .alloc 0) trivial rfl
  have h3 : Run.Reach Init step Covered _ := h2.step (i := .cas 0) trivial rfl
  have h4 : Run.Reach Init step Covered _ :=
    h3.step (i := .lock 0 (.act (.master 5))) trivial rfl
  -- the header that the first run has made has the object as its original master
  have h5 : Run.Reach Init step Covered _ :=
    h4.step (i := .enq 0 ⟨0, 0⟩ 10 64 256)
      (fun v hv => ⟨5, by obtain rfl := Option.some_inj.mp hv; rfl⟩) rfl
  have h6 : Run.Reach Init step Covered _ :=
    h5.step (i := .restart [] zeroed [⟨⟨0, 0⟩, .master 5, 10⟩]) ?_ rfl
  · exact ⟨_, h6, rfl, rfl, (pointers_of_covered h6).1⟩
  · intro a ha
    refine ⟨_, List.mem_cons_self, ?_⟩
    by_contra hne
    have hne' : a ≠ 5 := fun heq => hne (heq ▸ rfl)
    -- no other object has a header
    refine ha ?_
    simp [State.image, Heap.setCurAct, Heap.setNvhdr, firstRun, Function.update_of_ne hne']

/-- Object 5 is locked and never checkpointed; the next run still reads the pointer of the
first one. -/
theorem stale_pointer : ¬ ∀ s, Run.Reach Init step Run.any s → PointersOk s := by
  intro h
  have hrun : (Run.exec step Run.any firstRun
      [.load 0 5, .alloc 0, .cas 0, .restart [] zeroed []]).map
      (fun s => decide ((s.heap.nvhdr 5).pActVhdr = some ⟨1, 0⟩ ∧ s.heap.genId = 2)) =
      some true := by decide
  obtain ⟨s, hs, hd⟩ := Option.map_eq_some_iff.mp hrun
  obtain ⟨hv, hg⟩ := of_decide_eq_true hd
  have hok := h s (.of_exec (.init firstRun_init) hs) (.master 5) ⟨1, 0⟩ hv
  rw [hg] at hok
  cases hok

end TimeStone.Vhdr
