/-
The invariant of the version chains.

`Chains` is about the copies that were inserted: what a copy records of the next older one,
and that no two copies have the same next older one.  `ThreadOk` is about a thread: the locks
it holds, and where its `_ts_try_lock` or `tvlog_commit` stands.  A step of one thread leaves
what another thread relies on (`Frame`), because a lock keeps all others from inserting.

* `Chains.chainOk` — the invariant gives the order of the chains;
* `ThreadOk.frame` — what a thread relies on is kept by the steps of the others;
* `inv_lockStep` — the steps of `_ts_try_lock` keep the invariant.
-/
import TimeStone.VersionChain

namespace TimeStone.VersionChain

variable {B : ℕ} {s s' : State} {t u o k w W : ℕ} {T : Thread} {c : Copy}

/-- The copy has its stamp. -/
def Copy.Committed (c : Copy) : Prop := c.wrtClk ≠ maxVersion

/-- What an inserted copy `n` records of the next older copy `k`. -/
structure Link (B : ℕ) (s : State) (n k : ℕ) : Prop where
  inserted : (s.copies k).inserted = true
  obj : (s.copies k).obj = (s.copies n).obj
  committed : (s.copies k).Committed
  next : (s.copies n).wrtClkNext = (s.copies k).wrtClk
  gap : (s.copies n).Committed → (s.copies k).wrtClk + 2 * B < (s.copies n).wrtClk
  prev : (s.copies n).Committed → (s.copies k).wrtClkPrev = (s.copies n).wrtClk

/-- The copies and the chains. -/
structure Chains (B : ℕ) (s : State) : Prop where
  ws : ∀ k < s.numCopies, (s.copies k).ws < s.numWss
  stamp : ∀ k < s.numCopies, (s.copies k).Committed →
    (s.wss (s.copies k).ws).wrtClk = (s.copies k).wrtClk
  alloc : ∀ k, (s.copies k).inserted = true → k < s.numCopies ∧ (s.copies k).kind = .copy
  head : ∀ o k, s.pCopy o = some k → (s.copies k).inserted = true ∧ (s.copies k).obj = o ∧
    (s.copies k).wrtClkPrev = maxVersion
  link : ∀ n k, (s.copies n).inserted = true → (s.copies n).pCopy = some k → Link B s n k
  unstamped : ∀ n, (s.copies n).inserted = true → ¬ (s.copies n).Committed →
    s.pCopy (s.copies n).obj = some n ∧ s.pLock (s.copies n).obj = some n
  one : ∀ n n' k, (s.copies n).inserted = true → (s.copies n').inserted = true →
    (s.copies n).pCopy = some k → (s.copies n').pCopy = some k → n = n'
  newest : ∀ o n k, s.pCopy o = some k → (s.copies n).inserted = true →
    (s.copies n).pCopy ≠ some k

theorem Chains.inserted_of_inChain (h : Chains B s) (hk : InChain s o k) :
    (s.copies k).inserted = true ∧ (s.copies k).obj = o := by
  induction hk with
  | head hp =>
    have hh := h.head _ _ hp
    exact ⟨hh.1, hh.2.1⟩
  | older _ hp ih =>
    have hl := h.link _ _ ih.1 hp
    exact ⟨hl.inserted, hl.obj.trans ih.2⟩

theorem Chains.chainOk (h : Chains B s) : ChainOk B s where
  pair := by
    intro o n k hn hp hcn _
    have hl := h.link n k (h.inserted_of_inChain hn).1 hp
    exact ⟨hl.gap hcn, hl.next, hl.prev hcn⟩
  head := fun o k hp => (h.head o k hp).2.2
  uncommitted := by
    intro o k hk hc
    obtain ⟨hins, hobj⟩ := h.inserted_of_inChain hk
    have hu := h.unstamped k hins fun hcom => hcom hc
    rw [hobj] at hu
    exact hu
  kind := by
    intro o k hk
    obtain ⟨hins, hobj⟩ := h.inserted_of_inChain hk
    exact ⟨(h.alloc k hins).2, hobj⟩

/-! ### One thread -/

/-- The copies whose locks a thread holds for its write set. -/
def Thread.held (T : Thread) : List ℕ :=
  match T.pc with
  | .stamp _ ks => ks
  | _ => T.copies

theorem held_eq (h : ∀ W ks, T.pc ≠ .stamp W ks) : T.held = T.copies := by
  unfold Thread.held
  split
  · rename_i W ks hpc
    exact absurd hpc (h W ks)
  · rfl

/-- The thread holds the lock for its copy `k`. -/
structure Holds (s : State) (T : Thread) (k : ℕ) : Prop where
  alloc : k < s.numCopies
  ws : T.ws = some (s.copies k).ws
  unstamped : ¬ (s.copies k).Committed
  lock : s.pLock (s.copies k).obj = some k

/-- The next older version of the copy `k` is before the local clock: the newest one of the
object as long as `k` is not inserted. -/
structure After (B : ℕ) (s : State) (T : Thread) (k : ℕ) : Prop where
  head : (s.copies k).inserted = false → ∀ k', s.pCopy (s.copies k).obj = some k' →
    (s.copies k').Committed ∧ (s.copies k').wrtClk + B < T.localClk
  older : (s.copies k).inserted = true → ∀ k', (s.copies k).pCopy = some k' →
    (s.copies k').wrtClk + B < T.localClk

/-- The version that `_ts_try_lock` has compared is before the local clock. -/
def Compared (B : ℕ) (s : State) (T : Thread) (old : Option ℕ) : Prop :=
  ∀ k, old = some k → k < s.numCopies ∧ (s.wss (s.copies k).ws).wrtClk ≠ maxVersion ∧
    (s.wss (s.copies k).ws).wrtClk + B < T.localClk

/-- A copy that was not touched since its allocation. -/
def Fresh (s : State) (k : ℕ) : Prop := (s.copies k).inserted = false ∧ (s.copies k).pCopy = none

/-- The copies of the list are still to be inserted, and the others, except for those of
`except`, are inserted or untouched. -/
structure Moving (s : State) (T : Thread) (ks except : List ℕ) : Prop where
  sub : ∀ k ∈ ks, k ∈ T.copies
  nodup : ks.Nodup
  waiting : ∀ k ∈ ks, (s.copies k).inserted = false
  rest : ∀ k ∈ T.copies, k ∉ except → (s.copies k).inserted = true ∨ (s.copies k).pCopy = none

/-- The copy `k` is being inserted before the version `old`. -/
structure Inserting (s : State) (T : Thread) (k : ℕ) (old : Option ℕ) (ks : List ℕ) : Prop where
  moving : Moving s T (k :: ks) [k]
  prev : (s.copies k).wrtClkPrev = maxVersion
  kind : (s.copies k).kind = .copy
  old : ∀ k', old = some k' → (s.copies k').Committed ∧ k' < s.numCopies

/-- The write set has no clock yet. -/
def Unpublished (s : State) (T : Thread) : Prop :=
  ∀ w, T.ws = some w → (s.wss w).wrtClk = maxVersion

/-- Where the calls of a thread stand. -/
def PcOk (B : ℕ) (s : State) (T : Thread) : Pc → Prop
  | .outside => T.copies = [] ∧ Unpublished s T
  | .inTx | .lockCopy .. => (∀ k ∈ T.copies, Fresh s k) ∧ Unpublished s T
  | .chkWrtClk _ _ k | .chkPending _ _ k | .chkWait _ _ k =>
    (∀ k ∈ T.copies, Fresh s k) ∧ Unpublished s T ∧ k < s.numCopies
  | .tryTest _ _ old => (∀ k ∈ T.copies, Fresh s k) ∧ Unpublished s T ∧ Compared B s T old
  | .tryCas o old k => (∀ k ∈ T.copies, Fresh s k) ∧ Unpublished s T ∧ Compared B s T old ∧
      k < s.numCopies ∧ T.ws = some (s.copies k).ws ∧ ¬ (s.copies k).Committed ∧ Fresh s k ∧
      (s.copies k).obj = o ∧ k ∉ T.copies
  | .recheck o old k => (∀ k ∈ T.copies, Fresh s k) ∧ Unpublished s T ∧ Compared B s T old ∧
      Holds s T k ∧ Fresh s k ∧ (s.copies k).obj = o ∧ k ∉ T.copies
  | .move ks => Moving s T ks [] ∧ Unpublished s T
  | .moveInit k old ks => Inserting s T k old ks ∧ Unpublished s T
  | .moveCas k old ks => Inserting s T k old ks ∧ Unpublished s T ∧
      (s.copies k).pCopy = old ∧ (s.copies k).wrtClkNext = nextClk s old
  | .gotClock W | .publish W => Moving s T [] [] ∧ Unpublished s T ∧
      T.localClk + 2 * B < W ∧ W < maxVersion
  | .stamp W ks => (∀ k ∈ ks, k ∈ T.copies) ∧ ks.Nodup ∧
      (∀ k ∈ ks, (s.copies k).inserted = true ∨ (s.copies k).pCopy = none) ∧
      (∀ w, T.ws = some w → (s.wss w).wrtClk = W) ∧ T.localClk + 2 * B < W ∧ W < maxVersion

structure ThreadOk (B : ℕ) (s : State) (t : ℕ) (T : Thread) : Prop where
  ws : ∀ w, T.ws = some w → w < s.numWss ∧ (s.wss w).thread = t
  localClk : T.localClk < maxVersion
  nodup : T.copies.Nodup
  holds : ∀ k ∈ T.held, Holds s T k
  after : ∀ k ∈ T.held, After B s T k
  pc : PcOk B s T T.pc

structure Inv (B : ℕ) (s : State) : Prop where
  chains : Chains B s
  threads : ∀ t, ThreadOk B s t (s.threads t)

/-! ### What a step leaves to the other threads -/

/-- The step from `s` to `s'` keeps what the thread `u` relies on: its own copies and its
write set, the stamps of all copies, and its locks, under which a chain changes only by a
detach. -/
structure Frame (s s' : State) (u : ℕ) : Prop where
  num : s.numCopies ≤ s'.numCopies
  numWss : s.numWss ≤ s'.numWss
  ws : ∀ k < s.numCopies, (s'.copies k).ws = (s.copies k).ws
  stamp : ∀ k < s.numCopies, (s.copies k).Committed → (s'.copies k).wrtClk = (s.copies k).wrtClk
  thread : ∀ w < s.numWss, (s'.wss w).thread = (s.wss w).thread
  clk : ∀ w < s.numWss, (s.wss w).wrtClk ≠ maxVersion → (s'.wss w).wrtClk = (s.wss w).wrtClk
  ownClk : ∀ w < s.numWss, (s.wss w).thread = u → (s'.wss w).wrtClk = (s.wss w).wrtClk
  own : ∀ k < s.numCopies, (s.wss (s.copies k).ws).thread = u → ¬ (s.copies k).Committed →
    s'.copies k = s.copies k
  lock : ∀ k < s.numCopies, (s.wss (s.copies k).ws).thread = u → ¬ (s.copies k).Committed →
    s.pLock (s.copies k).obj = some k → s'.pLock (s.copies k).obj = some k ∧
      (s'.pCopy (s.copies k).obj = s.pCopy (s.copies k).obj ∨ s'.pCopy (s.copies k).obj = none)

theorem Frame.committed (hf : Frame s s' u) (hk : k < s.numCopies) (h : (s.copies k).Committed) :
    (s'.copies k).Committed := by
  rw [Copy.Committed, hf.stamp k hk h]
  exact h

section

variable (hf : Frame s s' u) (hws : ∀ w, T.ws = some w → w < s.numWss ∧ (s.wss w).thread = u)

include hf hws

theorem Frame.copies_eq (h : k < s.numCopies) (hw : T.ws = some (s.copies k).ws)
    (hc : ¬ (s.copies k).Committed) : s'.copies k = s.copies k :=
  hf.own k h (hws _ hw).2 hc

theorem Frame.holds (h : Holds s T k) : Holds s' T k := by
  have he := hf.copies_eq hws h.alloc h.ws h.unstamped
  constructor
  · exact Nat.lt_of_lt_of_le h.alloc hf.num
  · rw [he]
    exact h.ws
  · rw [he]
    exact h.unstamped
  · rw [he]
    exact (hf.lock k h.alloc (hws _ h.ws).2 h.unstamped h.lock).1

theorem Frame.after (hc : Chains B s) (h : Holds s T k) (ha : After B s T k) : After B s' T k := by
  have he := hf.copies_eq hws h.alloc h.ws h.unstamped
  constructor
  · intro hins k' hk'
    rw [he] at hins hk'
    rcases (hf.lock k h.alloc (hws _ h.ws).2 h.unstamped h.lock).2 with hp | hp
    · rw [hp] at hk'
      obtain ⟨h1, h2⟩ := ha.head hins k' hk'
      have hlt := (hc.alloc k' (hc.head _ _ hk').1).1
      exact ⟨hf.committed hlt h1, by rw [hf.stamp k' hlt h1]; exact h2⟩
    · rw [hp] at hk'
      cases hk'
  · intro hins k' hk'
    rw [he] at hins hk'
    have hl := hc.link k k' hins hk'
    rw [hf.stamp k' (hc.alloc k' hl.inserted).1 hl.committed]
    exact ha.older hins k' hk'

theorem Frame.unpublished (h : Unpublished s T) : Unpublished s' T := by
  intro w hw
  rw [hf.ownClk w (hws w hw).1 (hws w hw).2]
  exact h w hw

end

theorem Frame.compared (hf : Frame s s' u) (hc : Chains B s) {old : Option ℕ}
    (h : Compared B s T old) : Compared B s' T old := by
  intro k hk
  obtain ⟨h1, h2, h3⟩ := h k hk
  have he : (s'.wss (s'.copies k).ws).wrtClk = (s.wss (s.copies k).ws).wrtClk := by
    rw [hf.ws k h1]
    exact hf.clk _ (hc.ws k h1) h2
  rw [he]
  exact ⟨Nat.lt_of_lt_of_le h1 hf.num, h2, h3⟩

theorem Frame.old (hf : Frame s s' u) {old : Option ℕ}
    (h : ∀ k', old = some k' → (s.copies k').Committed ∧ k' < s.numCopies) :
    (∀ k', old = some k' → (s'.copies k').Committed ∧ k' < s'.numCopies) ∧
      nextClk s' old = nextClk s old := by
  constructor
  · intro k' hk'
    obtain ⟨h1, h2⟩ := h k' hk'
    exact ⟨hf.committed h2 h1, Nat.lt_of_lt_of_le h2 hf.num⟩
  · cases old with
    | none => rfl
    | some k' =>
      obtain ⟨h1, h2⟩ := h k' rfl
      exact hf.stamp k' h2 h1

theorem Moving.congr {ks except : List ℕ} (h : Moving s T ks except)
    (he : ∀ k ∈ T.copies, s'.copies k = s.copies k) : Moving s' T ks except := by
  refine ⟨h.sub, h.nodup, fun k hk => ?_, fun k hk => ?_⟩
  · rw [he k (h.sub k hk)]
    exact h.waiting k hk
  · rw [he k hk]
    exact h.rest k hk

theorem Frame.inserting (hf : Frame s s' u) {old : Option ℕ} {ks : List ℕ}
    (h : Inserting s T k old ks) (he : ∀ k ∈ T.copies, s'.copies k = s.copies k) :
    Inserting s' T k old ks := by
  have hk := he k (h.moving.sub k (List.mem_cons_self ..))
  refine ⟨h.moving.congr he, ?_, ?_, (hf.old h.old).1⟩
  · rw [hk]
    exact h.prev
  · rw [hk]
    exact h.kind

theorem fresh_congr (he : s'.copies k = s.copies k) (h : Fresh s k) : Fresh s' k := by
  rw [Fresh, he]
  exact h

theorem ThreadOk.frame (h : ThreadOk B s u T) (hc : Chains B s) (hf : Frame s s' u) :
    ThreadOk B s' u T where
  ws := by
    intro w hw
    obtain ⟨h1, h2⟩ := h.ws w hw
    exact ⟨Nat.lt_of_lt_of_le h1 hf.numWss, by rw [hf.thread w h1]; exact h2⟩
  localClk := h.localClk
  nodup := h.nodup
  holds := fun k hk => hf.holds h.ws (h.holds k hk)
  after := fun k hk => hf.after h.ws hc (h.holds k hk) (h.after k hk)
  pc := by
    have hp := h.pc
    have hu : Unpublished s T → Unpublished s' T := hf.unpublished h.ws
    have hheld : ∀ k ∈ T.held, s'.copies k = s.copies k := by
      intro k hk
      have hk' := h.holds k hk
      exact hf.copies_eq h.ws hk'.alloc hk'.ws hk'.unstamped
    -- outside `ws_unlock_commit` all copies of the write set are locked
    have hall : (∀ W ks, T.pc ≠ .stamp W ks) → ∀ k ∈ T.copies, s'.copies k = s.copies k := by
      intro hne k hk
      exact hheld k (by rw [held_eq hne]; exact hk)
    have hfresh : (∀ W ks, T.pc ≠ .stamp W ks) → (∀ k ∈ T.copies, Fresh s k) →
        ∀ k ∈ T.copies, Fresh s' k :=
      fun hne h k hk => fresh_congr (hall hne k hk) (h k hk)
    cases hpc : T.pc with
    | outside =>
      rw [hpc] at hp
      exact ⟨hp.1, hu hp.2⟩
    | inTx =>
      rw [hpc] at hp hfresh
      exact ⟨hfresh nofun hp.1, hu hp.2⟩
    | lockCopy o kind =>
      rw [hpc] at hp hfresh
      exact ⟨hfresh nofun hp.1, hu hp.2⟩
    | chkWrtClk o kind k =>
      rw [hpc] at hp hfresh
      exact ⟨hfresh nofun hp.1, hu hp.2.1, Nat.lt_of_lt_of_le hp.2.2 hf.num⟩
    | chkPending o kind k =>
      rw [hpc] at hp hfresh
      exact ⟨hfresh nofun hp.1, hu hp.2.1, Nat.lt_of_lt_of_le hp.2.2 hf.num⟩
    | chkWait o kind k =>
      rw [hpc] at hp hfresh
      exact ⟨hfresh nofun hp.1, hu hp.2.1, Nat.lt_of_lt_of_le hp.2.2 hf.num⟩
    | tryTest o kind old =>
      rw [hpc] at hp hfresh
      exact ⟨hfresh nofun hp.1, hu hp.2.1, hf.compared hc hp.2.2⟩
    | tryCas o old k =>
      rw [hpc] at hp hfresh
      obtain ⟨h1, h2, h3, h4, h5, h6, h7, h8, h9⟩ := hp
      have he := hf.copies_eq h.ws h4 h5 h6
      refine ⟨hfresh nofun h1, hu h2, hf.compared hc h3, Nat.lt_of_lt_of_le h4 hf.num, ?_, ?_,
        fresh_congr he h7, ?_, h9⟩
      · rw [he]
        exact h5
      · rw [he]
        exact h6
      · rw [he]
        exact h8
    | recheck o old k =>
      rw [hpc] at hp hfresh
      obtain ⟨h1, h2, h3, h4, h5, h6, h7⟩ := hp
      have he := hf.copies_eq h.ws h4.alloc h4.ws h4.unstamped
      refine ⟨hfresh nofun h1, hu h2, hf.compared hc h3, hf.holds h.ws h4, fresh_congr he h5, ?_,
        h7⟩
      rw [he]
      exact h6
    | move ks =>
      rw [hpc] at hp hall
      exact ⟨hp.1.congr (hall nofun), hu hp.2⟩
    | moveInit k old ks =>
      rw [hpc] at hp hall
      exact ⟨hf.inserting hp.1 (hall nofun), hu hp.2⟩
    | moveCas k old ks =>
      rw [hpc] at hp hall
      obtain ⟨h1, h2, h3, h4⟩ := hp
      have he := hall nofun k (h1.moving.sub k (List.mem_cons_self ..))
      refine ⟨hf.inserting h1 (hall nofun), hu h2, ?_, ?_⟩
      · rw [he]
        exact h3
      · rw [he, (hf.old h1.old).2]
        exact h4
    | gotClock W =>
      rw [hpc] at hp hall
      exact ⟨hp.1.congr (hall nofun), hu hp.2.1, hp.2.2⟩
    | publish W =>
      rw [hpc] at hp hall
      exact ⟨hp.1.congr (hall nofun), hu hp.2.1, hp.2.2⟩
    | stamp W ks =>
      rw [hpc] at hp
      obtain ⟨h1, h2, h3, h4, h5⟩ := hp
      refine ⟨h1, h2, ?_, ?_, h5⟩
      · intro k hk
        rw [hheld k (by rw [Thread.held, hpc]; exact hk)]
        exact h3 k hk
      · intro w hw
        rw [hf.ownClk w (h.ws w hw).1 (h.ws w hw).2]
        exact h4 w hw

/-! ### Steps that change one thread only -/

@[simp] theorem setThread_threads : (s.setThread t T).threads u = if u = t then T else s.threads u :=
  Function.update_apply ..

@[simp] theorem setPc_threads {pc : Pc} : (s.setPc t pc).threads u =
    if u = t then { s.threads t with pc := pc } else s.threads u :=
  Function.update_apply ..

@[simp] theorem setCopy_copies : (s.setCopy k c).copies u = if u = k then c else s.copies u :=
  Function.update_apply ..

@[simp] theorem setPLock_pLock {x : Option ℕ} : (s.setPLock o x).pLock u =
    if u = o then x else s.pLock u :=
  Function.update_apply ..

@[simp] theorem setPCopy_pCopy {x : Option ℕ} : (s.setPCopy o x).pCopy u =
    if u = o then x else s.pCopy u :=
  Function.update_apply ..

@[simp] theorem setWs_wss {x : Ws} : (s.setWs w x).wss u = if u = w then x else s.wss u :=
  Function.update_apply ..

/-- The state up to the threads. -/
structure SameMem (s s' : State) : Prop where
  copies : s'.copies = s.copies := by rfl
  numCopies : s'.numCopies = s.numCopies := by rfl
  wss : s'.wss = s.wss := by rfl
  numWss : s'.numWss = s.numWss := by rfl
  pCopy : s'.pCopy = s.pCopy := by rfl
  pLock : s'.pLock = s.pLock := by rfl

theorem Link.congr (h : Link B s o k) (hn : s'.copies o = s.copies o)
    (hk : s'.copies k = s.copies k) : Link B s' o k := by
  obtain ⟨h1, h2, h3, h4, h5, h6⟩ := h
  constructor <;> rw [hk] <;> first | assumption | (rw [hn]; assumption)

theorem Chains.congr (h : Chains B s) (he : SameMem s s') : Chains B s' := by
  obtain ⟨e1, e2, e3, e4, e5, e6⟩ := he
  constructor
  · rw [e1, e2, e4]
    exact h.ws
  · rw [e1, e2, e3]
    exact h.stamp
  · rw [e1, e2]
    exact h.alloc
  · rw [e1, e5]
    exact h.head
  · intro n k hn hp
    rw [e1] at hn hp
    exact (h.link n k hn hp).congr (by rw [e1]) (by rw [e1])
  · rw [e1, e5, e6]
    exact h.unstamped
  · rw [e1]
    exact h.one
  · rw [e1, e5]
    exact h.newest

theorem Frame.of_same (he : SameMem s s') : Frame s s' u := by
  obtain ⟨e1, e2, e3, e4, e5, e6⟩ := he
  constructor
  · exact Nat.le_of_eq e2.symm
  · exact Nat.le_of_eq e4.symm
  · intro k _
    rw [e1]
  · intro k _ _
    rw [e1]
  · intro w _
    rw [e3]
  · intro w _ _
    rw [e3]
  · intro w _ _
    rw [e3]
  · intro k _ _ _
    rw [e1]
  · intro k _ _ _ hl
    rw [e5, e6]
    exact ⟨hl, Or.inl rfl⟩

/-- A step of the thread `t`. -/
theorem Inv.next (h : Inv B s) (hc : Chains B s')
    (hother : ∀ u, u ≠ t → s'.threads u = s.threads u ∧ Frame s s' u)
    (ht : ThreadOk B s' t (s'.threads t)) : Inv B s' where
  chains := hc
  threads := by
    intro u
    by_cases hu : u = t
    · rw [hu]
      exact ht
    · obtain ⟨h1, h2⟩ := hother u hu
      rw [h1]
      exact (h.threads u).frame h.chains h2

theorem Inv.setThread (h : Inv B s) (hT : ThreadOk B s t T) : Inv B (s.setThread t T) := by
  have he : SameMem s (s.setThread t T) := {}
  refine h.next (t := t) (h.chains.congr he) ?_ ?_
  · intro u hu
    exact ⟨by simp [hu], Frame.of_same he⟩
  · rw [setThread_threads, if_pos rfl]
    exact hT.frame h.chains (Frame.of_same he)

/-- Only the program counter of a thread changes, outside `ws_unlock_commit`. -/
theorem Inv.setPc (h : Inv B s) {pc : Pc} (hne : ∀ W ks, (s.threads t).pc ≠ .stamp W ks)
    (hne' : ∀ W ks, pc ≠ .stamp W ks) (hpc : PcOk B s { s.threads t with pc := pc } pc) :
    Inv B (s.setPc t pc) := by
  have ht := h.threads t
  have hheld : ({ s.threads t with pc := pc } : Thread).held = (s.threads t).held := by
    rw [held_eq hne, held_eq hne']
  refine h.setThread ⟨ht.ws, ht.localClk, ht.nodup, ?_, ?_, hpc⟩
  · rw [hheld]
    intro k hk
    obtain ⟨h1, h2, h3, h4⟩ := ht.holds k hk
    exact ⟨h1, h2, h3, h4⟩
  · rw [hheld]
    intro k hk
    obtain ⟨h1, h2⟩ := ht.after k hk
    exact ⟨h1, h2⟩

/-! ### `_ts_try_lock` -/

/-- A lock attempt of the thread `t` is under way, or none at all. -/
theorem inv_lockFails (h : Inv B s) (hne : ∀ W ks, (s.threads t).pc ≠ .stamp W ks)
    (hfresh : ∀ k ∈ (s.threads t).copies, Fresh s k) (hu : Unpublished s (s.threads t)) :
    Inv B (s.setPc t .inTx) :=
  h.setPc hne nofun ⟨hfresh, hu⟩

/-- The test of `_ts_try_lock` with a value that is the clock of the write set if it is before
the local clock. -/
theorem inv_judge (h : Inv B s) {kind : Kind} (hne : ∀ W ks, (s.threads t).pc ≠ .stamp W ks)
    (hfresh : ∀ k ∈ (s.threads t).copies, Fresh s k) (hu : Unpublished s (s.threads t))
    (hk : k < s.numCopies) (hw : W ≠ maxVersion → (s.wss (s.copies k).ws).wrtClk = W) :
    Inv B (judge B s t o kind k W) := by
  unfold judge
  split
  · exact inv_lockFails h hne hfresh hu
  · rename_i hlt
    rw [gteClock_iff] at hlt
    refine h.setPc hne nofun ⟨hfresh, hu, ?_⟩
    intro k' hk'
    obtain rfl := Option.some_inj.mp hk'
    have hclk := (h.threads t).localClk
    have hW := hw (by omega)
    rw [hW]
    exact ⟨hk, by omega, by simpa using hlt⟩

theorem appendBegin_copies {kind : Kind} (hk : k ≠ s.numCopies) :
    (appendBegin s t o kind).copies k = s.copies k :=
  Function.update_of_ne hk ..

theorem appendBegin_new {kind : Kind} : (appendBegin s t o kind).copies s.numCopies =
    ⟨o, (s.threads t).ws.getD s.numWss, kind, maxVersion, 0, 0, none, false⟩ :=
  Function.update_self ..

theorem appendBegin_wss {kind : Kind} (hw : w < s.numWss) :
    (appendBegin s t o kind).wss w = s.wss w := by
  unfold appendBegin
  dsimp only
  split
  · rename_i hn
    rw [hn]
    exact Function.update_of_ne (Nat.ne_of_lt hw) ..
  · rfl

theorem appendBegin_frame {kind : Kind} : Frame s (appendBegin s t o kind) u := by
  have hcopies : ∀ k < s.numCopies, (appendBegin s t o kind).copies k = s.copies k :=
    fun k hk => appendBegin_copies (Nat.ne_of_lt hk)
  constructor
  · exact Nat.le_succ _
  · show s.numWss ≤ if (s.threads t).ws = none then s.numWss + 1 else s.numWss
    split <;> omega
  · intro k hk
    rw [hcopies k hk]
  · intro k hk _
    rw [hcopies k hk]
  · intro w hw
    rw [appendBegin_wss hw]
  · intro w hw _
    rw [appendBegin_wss hw]
  · intro w hw _
    rw [appendBegin_wss hw]
  · intro k hk _ _
    exact hcopies k hk
  · intro k _ _ _ hl
    exact ⟨hl, Or.inl rfl⟩

theorem appendBegin_chains {kind : Kind} (h : Inv B s) : Chains B (appendBegin s t o kind) := by
  have hc := h.chains
  have hf : Frame s (appendBegin s t o kind) t := appendBegin_frame
  -- inserted copies are old ones
  have hold : ∀ {k}, ((appendBegin s t o kind).copies k).inserted = true →
      (s.copies k).inserted = true ∧ (appendBegin s t o kind).copies k = s.copies k := by
    intro k hk
    by_cases hn : k = s.numCopies
    · rw [hn, appendBegin_new] at hk
      cases hk
    · rw [appendBegin_copies hn] at hk ⊢
      exact ⟨hk, rfl⟩
  have hlt : ∀ {k}, (s.copies k).inserted = true →
      (appendBegin s t o kind).copies k = s.copies k := fun hk =>
    appendBegin_copies (Nat.ne_of_lt (hc.alloc _ hk).1)
  constructor
  · intro k hk
    by_cases hn : k = s.numCopies
    · rw [hn, appendBegin_new]
      show (s.threads t).ws.getD s.numWss < if (s.threads t).ws = none then s.numWss + 1 else s.numWss
      cases hw : (s.threads t).ws with
      | none => simp
      | some w => simpa using ((h.threads t).ws w hw).1
    · rw [appendBegin_copies hn]
      have hk' : k < s.numCopies + 1 := hk
      exact Nat.lt_of_lt_of_le (hc.ws k (by omega)) hf.numWss
  · intro k hk hcom
    by_cases hn : k = s.numCopies
    · rw [hn, appendBegin_new] at hcom
      exact absurd rfl hcom
    · rw [appendBegin_copies hn] at hcom ⊢
      have hk' : k < s.numCopies + 1 := hk
      rw [appendBegin_wss (hc.ws k (by omega))]
      exact hc.stamp k (by omega) hcom
  · intro k hk
    obtain ⟨h1, h2⟩ := hold hk
    rw [h2]
    exact ⟨Nat.lt_succ_of_lt (hc.alloc k h1).1, (hc.alloc k h1).2⟩
  · intro o' k hp
    have hh := hc.head o' k hp
    rw [hlt hh.1]
    exact hh
  · intro n k hn hp
    obtain ⟨h1, h2⟩ := hold hn
    rw [h2] at hp
    have hl := hc.link n k h1 hp
    exact hl.congr h2 (hlt hl.inserted)
  · intro n hn hcom
    obtain ⟨h1, h2⟩ := hold hn
    rw [h2] at hcom ⊢
    exact hc.unstamped n h1 hcom
  · intro n n' k hn hn' hp hp'
    obtain ⟨h1, h2⟩ := hold hn
    obtain ⟨h1', h2'⟩ := hold hn'
    rw [h2] at hp
    rw [h2'] at hp'
    exact hc.one n n' k h1 h1' hp hp'
  · intro o' n k hp hn
    obtain ⟨h1, h2⟩ := hold hn
    rw [h2]
    exact hc.newest o' n k hp h1

theorem appendBegin_threads {kind : Kind} : (appendBegin s t o kind).threads u =
    if u = t then { s.threads t with ws := some ((s.threads t).ws.getD s.numWss) }
    else s.threads u :=
  Function.update_apply ..

/-- A new copy is allocated, in a new write set if the transaction has none. -/
theorem inv_appendBegin (h : Inv B s) {kind : Kind} {old : Option ℕ}
    (hpc : (s.threads t).pc = .tryTest o kind old) : Inv B (appendBegin s t o kind) := by
  have hc := h.chains
  have hf : ∀ u, Frame s (appendBegin s t o kind) u := fun _ => appendBegin_frame
  refine h.next (t := t) (appendBegin_chains h) ?_ ?_
  · intro u hu
    exact ⟨by rw [appendBegin_threads, if_neg hu], hf u⟩
  · rw [appendBegin_threads, if_pos rfl]
    have ht := h.threads t
    cases hw : (s.threads t).ws with
    | some w =>
      have hT : ({ s.threads t with ws := some ((some w).getD s.numWss) } : Thread) =
          s.threads t := by
        rw [Option.getD_some, ← hw]
      rw [hT]
      exact ht.frame hc (hf t)
    | none =>
      have hnew : (appendBegin s t o kind).wss s.numWss = ⟨t, maxVersion, maxVersion⟩ := by
        simp [appendBegin, hw]
      have hheld : (s.threads t).held = (s.threads t).copies :=
        held_eq (by rw [hpc]; exact nofun)
      -- without a write set the transaction has no copies
      have hnil : (s.threads t).copies = [] := by
        rw [List.eq_nil_iff_forall_not_mem]
        intro k hk
        have hws := (ht.holds k (by rw [hheld]; exact hk)).ws
        rw [hw] at hws
        cases hws
      have hcmp := ht.pc
      rw [hpc] at hcmp
      refine ⟨?_, ht.localClk, ht.nodup, ?_, ?_, ?_⟩
      · intro w' hw'
        obtain rfl : s.numWss = w' := Option.some_inj.mp hw'
        rw [hnew]
        refine ⟨?_, rfl⟩
        show s.numWss < if (s.threads t).ws = none then s.numWss + 1 else s.numWss
        rw [hw, if_pos rfl]
        exact Nat.lt_succ_self _
      · rw [held_eq (by dsimp only; rw [hpc]; exact nofun)]
        dsimp only
        rw [hnil]
        exact nofun
      · rw [held_eq (by dsimp only; rw [hpc]; exact nofun)]
        dsimp only
        rw [hnil]
        exact nofun
      · dsimp only
        rw [hpc]
        refine ⟨?_, ?_, (hf t).compared hc hcmp.2.2⟩
        · dsimp only
          rw [hnil]
          exact nofun
        · intro w' hw'
          obtain rfl : s.numWss = w' := Option.some_inj.mp hw'
          rw [hnew]

theorem inv_tryTest (h : Inv B s) {kind : Kind} {old : Option ℕ}
    (hpc : (s.threads t).pc = .tryTest o kind old) :
    Inv B ((appendBegin s t o kind).setPc t .inTx) ∧
      Inv B ((appendBegin s t o kind).setPc t (.tryCas o old s.numCopies)) := by
  have h₁ := inv_appendBegin h hpc
  have ht₁ := h₁.threads t
  have hT : (appendBegin s t o kind).threads t =
      { s.threads t with ws := some ((s.threads t).ws.getD s.numWss) } := by
    rw [appendBegin_threads, if_pos rfl]
  have hpc₁ : ((appendBegin s t o kind).threads t).pc = .tryTest o kind old := by
    rw [hT]
    exact hpc
  have hp := ht₁.pc
  rw [hpc₁] at hp
  have hne : ∀ W ks, ((appendBegin s t o kind).threads t).pc ≠ .stamp W ks := by
    rw [hpc₁]
    exact nofun
  refine ⟨inv_lockFails h₁ hne hp.1 hp.2.1, h₁.setPc hne nofun ⟨hp.1, hp.2.1, hp.2.2, ?_⟩⟩
  refine ⟨Nat.lt_succ_self _, ?_, ?_, ?_, ?_, ?_⟩
  · dsimp only
    rw [hT, appendBegin_new]
  · rw [appendBegin_new]
    exact fun hc => hc rfl
  · rw [Fresh, appendBegin_new]
    exact ⟨rfl, rfl⟩
  · rw [appendBegin_new]
  · -- the copies of the write set are older
    intro hmem
    have hk := (h.threads t).holds s.numCopies (by
      rw [held_eq (by rw [hpc]; exact nofun)]
      rw [hT] at hmem
      exact hmem)
    exact Nat.lt_irrefl _ hk.alloc

/-- The compare-and-swap on `p_lock`. -/
theorem inv_tryCas (h : Inv B s) {old : Option ℕ} (hpc : (s.threads t).pc = .tryCas o old k)
    (hfree : s.pLock o = none) : Inv B ((s.setPLock o (some k)).setPc t (.recheck o old k)) := by
  have hc := h.chains
  have hlock : ∀ {o' k'}, s.pLock o' = some k' → (s.setPLock o (some k)).pLock o' = some k' := by
    intro o' k' hl
    rw [setPLock_pLock, if_neg]
    · exact hl
    · rintro rfl
      rw [hfree] at hl
      cases hl
  have hf : ∀ u, Frame s (s.setPLock o (some k)) u := by
    intro u
    refine ⟨Nat.le_refl _, Nat.le_refl _, fun _ _ => rfl, fun _ _ _ => rfl, fun _ _ => rfl,
      fun _ _ _ => rfl, fun _ _ _ => rfl, fun _ _ _ _ => rfl, ?_⟩
    intro k' _ _ _ hl
    exact ⟨hlock hl, Or.inl rfl⟩
  have hchains : Chains B (s.setPLock o (some k)) := by
    refine ⟨hc.ws, hc.stamp, hc.alloc, hc.head, ?_, ?_, hc.one, hc.newest⟩
    · intro n k' hn hp
      exact (hc.link n k' hn hp).congr rfl rfl
    · intro n hn hu
      obtain ⟨h1, h2⟩ := hc.unstamped n hn hu
      exact ⟨h1, hlock h2⟩
  have h₁ : Inv B (s.setPLock o (some k)) :=
    h.next (t := t) hchains (fun u _ => ⟨rfl, hf u⟩) ((h.threads t).frame hc (hf t))
  have hp := (h₁.threads t).pc
  have hpc₁ : ((s.setPLock o (some k)).threads t).pc = .tryCas o old k := hpc
  rw [hpc₁] at hp
  obtain ⟨h1, h2, h3, h4, h5, h6, h7, h8, h9⟩ := hp
  refine h₁.setPc (by rw [hpc₁]; exact nofun) nofun ⟨h1, h2, h3, ⟨h4, h5, h6, ?_⟩, h7, h8, h9⟩
  rw [h8, setPLock_pLock, if_pos rfl]

/-- The newest version is not the one that was compared: unlock. -/
theorem inv_recheckFails (h : Inv B s) {old : Option ℕ}
    (hpc : (s.threads t).pc = .recheck o old k) : Inv B ((s.setPLock o none).setPc t .inTx) := by
  have hc := h.chains
  have ht := h.threads t
  have hp := ht.pc
  rw [hpc] at hp
  obtain ⟨h1, h2, h3, h4, h5, h6, h7⟩ := hp
  have hlk : s.pLock o = some k := by
    rw [← h6]
    exact h4.lock
  have hlock : ∀ {o' k'}, s.pLock o' = some k' → k' ≠ k → (s.setPLock o none).pLock o' = some k' := by
    intro o' k' hl hne
    rw [setPLock_pLock, if_neg]
    · exact hl
    · rintro rfl
      rw [hlk, Option.some_inj] at hl
      exact hne hl.symm
  have hchains : Chains B (s.setPLock o none) := by
    refine ⟨hc.ws, hc.stamp, hc.alloc, hc.head, ?_, ?_, hc.one, hc.newest⟩
    · intro n k' hn hp
      exact (hc.link n k' hn hp).congr rfl rfl
    · intro n hn hu
      obtain ⟨g1, g2⟩ := hc.unstamped n hn hu
      refine ⟨g1, hlock g2 ?_⟩
      rintro rfl
      have hn' : (s.copies n).inserted = true := hn
      rw [h5.1] at hn'
      cases hn'
  have hne : ∀ W ks, (s.threads t).pc ≠ .stamp W ks := by
    rw [hpc]
    exact nofun
  have hnotk : ∀ k' ∈ (s.threads t).copies, k' ≠ k := by
    rintro k' hk' rfl
    exact h7 hk'
  refine h.next (t := t) (hchains.congr {}) ?_ ?_
  · intro u hu
    refine ⟨by simp [hu, State.setPLock], Nat.le_refl _, Nat.le_refl _, fun _ _ => rfl,
      fun _ _ _ => rfl, fun _ _ => rfl, fun _ _ _ => rfl, fun _ _ _ => rfl, fun _ _ _ _ => rfl, ?_⟩
    intro k' _ hown _ hl
    refine ⟨hlock hl ?_, Or.inl rfl⟩
    rintro rfl
    rw [(ht.ws _ h4.ws).2] at hown
    exact hu hown.symm
  · rw [setPc_threads, if_pos rfl]
    have hholds := ht.holds
    have hafter := ht.after
    rw [held_eq hne] at hholds hafter
    refine ⟨ht.ws, ht.localClk, ht.nodup, ?_, ?_, h1, h2⟩
    · intro k' hk'
      obtain ⟨g1, g2, g3, g4⟩ := hholds k' hk'
      exact ⟨g1, g2, g3, hlock g4 (hnotk k' hk')⟩
    · intro k' hk'
      obtain ⟨g1, g2⟩ := hafter k' hk'
      exact ⟨g1, g2⟩

/-- The lock is taken on the version that was compared. -/
theorem inv_recheck (h : Inv B s) (hpc : (s.threads t).pc = .recheck o (s.pCopy o) k) :
    Inv B (s.setThread t { s.threads t with
      pc := .inTx, copies := (s.threads t).copies ++ [k] }) := by
  have hc := h.chains
  have ht := h.threads t
  have hp := ht.pc
  rw [hpc] at hp
  obtain ⟨h1, h2, h3, h4, h5, h6, h7⟩ := hp
  have hholds := ht.holds
  have hafter := ht.after
  have hheld : (s.threads t).held = (s.threads t).copies := held_eq (by rw [hpc]; exact nofun)
  rw [hheld] at hholds hafter
  refine h.setThread ⟨ht.ws, ht.localClk, ?_, ?_, ?_, ?_, h2⟩
  · rw [← List.concat_eq_append]
    exact ht.nodup.concat h7
  · intro k' hk'
    rcases List.mem_append.mp hk' with hk' | hk'
    · obtain ⟨g1, g2, g3, g4⟩ := hholds k' hk'
      exact ⟨g1, g2, g3, g4⟩
    · obtain rfl := List.mem_singleton.mp hk'
      obtain ⟨g1, g2, g3, g4⟩ := h4
      exact ⟨g1, g2, g3, g4⟩
  · intro k' hk'
    rcases List.mem_append.mp hk' with hk' | hk'
    · obtain ⟨g1, g2⟩ := hafter k' hk'
      exact ⟨g1, g2⟩
    · obtain rfl := List.mem_singleton.mp hk'
      constructor
      · intro _ k₀ hk₀
        rw [h6] at hk₀
        have hins := (hc.head o k₀ hk₀).1
        -- an uncommitted version would hold the lock
        have hcom : (s.copies k₀).Committed := by
          by_contra hn
          have hl := (hc.unstamped k₀ hins hn).2
          rw [(hc.head o k₀ hk₀).2.1, ← h6, h4.lock, Option.some_inj] at hl
          rw [← hl, h5.1] at hins
          cases hins
        obtain ⟨g1, g2, g3⟩ := h3 k₀ hk₀
        rw [hc.stamp k₀ g1 hcom] at g3
        exact ⟨hcom, g3⟩
      · intro hins
        rw [h5.1] at hins
        cases hins
  · intro k' hk'
    rcases List.mem_append.mp hk' with hk' | hk'
    · exact h1 k' hk'
    · obtain rfl := List.mem_singleton.mp hk'
      exact h5

theorem inv_lockStep (h : Inv B s) (hs : lockStep B s t = some s') : Inv B s' := by
  have hp := (h.threads t).pc
  unfold lockStep at hs
  split at hs
  · rename_i o kind hpc
    rw [hpc] at hp
    split at hs
    · cases hs
      exact h.setPc (by rw [hpc]; exact nofun) nofun ⟨hp.1, hp.2, fun k hk => nomatch hk⟩
    · rename_i k hk
      cases hs
      refine h.setPc (by rw [hpc]; exact nofun) nofun ⟨hp.1, hp.2, ?_⟩
      exact (h.chains.alloc k (h.chains.head o k hk).1).1
  · rename_i o kind k hpc
    rw [hpc] at hp
    split at hs
    · rename_i hcom
      cases hs
      exact inv_judge h (by rw [hpc]; exact nofun) hp.1 hp.2.1 hp.2.2
        fun _ => h.chains.stamp k hp.2.2 hcom
    · cases hs
      exact h.setPc (by rw [hpc]; exact nofun) nofun hp
  · rename_i o kind k hpc
    rw [hpc] at hp
    dsimp only at hs
    split at hs
    · cases hs
      exact inv_judge h (by rw [hpc]; exact nofun) hp.1 hp.2.1 hp.2.2 fun hm => absurd rfl hm
    · cases hs
      exact h.setPc (by rw [hpc]; exact nofun) nofun hp
  · rename_i o kind k hpc
    rw [hpc] at hp
    dsimp only at hs
    split at hs
    · cases hs
    · cases hs
      exact inv_judge h (by rw [hpc]; exact nofun) hp.1 hp.2.1 hp.2.2 fun _ => rfl
  · rename_i o kind old hpc
    dsimp only at hs
    split at hs
    · cases hs
      exact (inv_tryTest h hpc).1
    · cases hs
      exact (inv_tryTest h hpc).2
  · rename_i o old k hpc
    rw [hpc] at hp
    split at hs
    · rename_i hfree
      cases hs
      exact inv_tryCas h hpc hfree
    · cases hs
      exact inv_lockFails h (by rw [hpc]; exact nofun) hp.1 hp.2.1
  · rename_i o old k hpc
    split at hs
    · cases hs
      exact inv_recheckFails h hpc
    · rename_i heq
      cases hs
      rw [Ne, Classical.not_not] at heq
      rw [← heq] at hpc
      exact inv_recheck h hpc
  · cases hs

end TimeStone.VersionChain
