/-
The invariant of commits next to readers.

`Newest` says what a `ts_deref` has to return: the newest version whose clock `W`
satisfies `lt_clock(W, local_clk)`.  Once it has been said it stays true
(`Grows.newest`): a copy inserted later belongs to a write set without a clock, and
a clock read later is not before the local clock.

* `MemInv` — the chains and the clocks of write sets;
* `ThreadInv` — the locks and the write set of a thread;
* `ReadInv` — what a transaction has read, and where its `ts_deref` stands;
* `inv_lock`, `inv_free`, `inv_endTx`, `inv_commitStep`, `inv_begin`, `inv_abort` — the
  steps that are not loads of a `ts_deref` preserve all three.
-/
import Mathlib.Data.Nat.Basic
import TimeStone.Commit

namespace TimeStone.Commit

variable {B : ℕ} {s s' : State}

/-- The clock of the write set of the copy `k`, once it is read. -/
def State.clkOf (s : State) (k : ℕ) : Option ℕ := (s.wss (s.copies k).ws).clk

/-- A reader with local clock `c` has to see the copy `k`. -/
def Vis (B : ℕ) (s : State) (c k : ℕ) : Prop := ∃ W, s.clkOf k = some W ∧ ltClock B W c

/-- `r` is the newest version of `o` that a reader with local clock `c` has to see. -/
def Newest (B : ℕ) (s : State) (c o : ℕ) : Option ℕ → Prop
  | none => ∀ k ∈ s.hist o, ¬ Vis B s c k
  | some k => ∃ newer older, s.hist o = newer ++ k :: older ∧
      (∀ k' ∈ newer, ¬ Vis B s c k') ∧ Vis B s c k

/-- A reader with local clock `c` is right to look at the copy `k` of `o` next. -/
def Due (B : ℕ) (s : State) (c o k : ℕ) : Prop :=
  ∃ newer older, s.hist o = newer ++ k :: older ∧ ∀ k' ∈ newer, ¬ Vis B s c k'

/-- The copies of a chain are linked from the newest to the oldest, and a copy was
locked by a transaction that could see the next older one. -/
def Linked (B : ℕ) (s : State) : List ℕ → Prop
  | [] => True
  | k :: ks => (s.copies k).pCopy = ks.head? ∧
      (∀ k' ∈ ks.head?, ∃ W, s.clkOf k' = some W ∧
        ltClock B W (s.wss (s.copies k).ws).localClk) ∧ Linked B s ks

/-- The invariant of one write set: `new_clock` keeps the clock two boundaries away from
the local clock, and `pending_wrt_clk` and `wrt_clk` are the clock once they are set. -/
structure WsInv (B : ℕ) (x : Ws) : Prop where
  clk : ∀ W, x.clk = some W → x.localClk + 2 * B < W
  pending : x.pendingWrtClk ≠ maxVersion → x.clk = some x.pendingWrtClk
  wrtClk : x.wrtClk ≠ maxVersion → x.clk = some x.wrtClk

/-- The invariant of the chains and of the clocks of write sets. -/
structure MemInv (B : ℕ) (s : State) : Prop where
  alloc : ∀ o, ∀ k ∈ s.hist o, k < s.numCopies ∧ (s.copies k).obj = o
  nodup : ∀ o, (s.hist o).Nodup
  head : ∀ o, s.pCopy o = (s.hist o).head?
  linked : ∀ o, Linked B s (s.hist o)
  lastClk : s.lastClk < maxVersion
  ws : ∀ k < s.numCopies, (s.copies k).ws < s.numWss
  fresh : ∀ w, s.numWss ≤ w → (s.wss w).clk = none
  each : ∀ w, WsInv B (s.wss w)
  stamp : ∀ k < s.numCopies, (s.copies k).wrtClk ≠ maxVersion →
    s.clkOf k = some (s.copies k).wrtClk

/-- The copies whose locks a thread holds. -/
def Thread.held (T : Thread) : List ℕ :=
  match T.pc with
  | .outside => []
  | .stamp _ ks => ks
  | _ => T.copies

/-- The copies of a thread that are in no chain yet. -/
def Thread.waiting (T : Thread) : List ℕ :=
  match T.pc with
  | .inTx | .loadWrtClk _ _ | .loadPending _ _ | .wait _ _ => T.copies
  | .insert ks => ks
  | _ => []

/-- The clock that the commit of a thread has taken. -/
def Thread.clk (T : Thread) : Option ℕ :=
  match T.pc with
  | .gotClock W | .appendOplog W | .publish W | .stamp W _ => some W
  | _ => none

/-- The invariant of one thread. -/
structure ThreadInv (B : ℕ) (s : State) (T : Thread) : Prop where
  idle : T.pc = .outside → T.ws = none ∧ T.copies = []
  localClk : T.localClk ≤ s.lastClk
  ws : ∀ w, T.ws = some w → w < s.numWss ∧ (s.wss w).localClk = T.localClk ∧
    (s.wss w).clk = T.clk
  copies : ∀ k ∈ T.copies, k < s.numCopies ∧ T.ws = some (s.copies k).ws
  nodup : T.copies.Nodup
  held : T.held.Sublist T.copies ∧ ∀ k ∈ T.held, s.pLock (s.copies k).obj = some k
  waiting : T.waiting.Sublist T.held ∧ ∀ k ∈ T.waiting, k ∉ s.hist (s.copies k).obj ∧
    ∀ k' ∈ (s.hist (s.copies k).obj).head?, ∃ W, s.clkOf k' = some W ∧
      ltClock B W T.localClk

/-- The invariant of all threads: a write set belongs to one thread. -/
structure ThreadsInv (B : ℕ) (s : State) : Prop where
  each : ∀ t, ThreadInv B s (s.threads t)
  owner : ∀ t t' w, (s.threads t).ws = some w → (s.threads t').ws = some w → t = t'

/-- What a reader has read, and where it is. -/
structure ReadInv (B : ℕ) (s : State) (T : Thread) : Prop where
  reads : ∀ p ∈ T.reads, Newest B s T.localClk p.1 p.2
  due : ∀ o k, T.pc = .loadWrtClk o k ∨ T.pc = .loadPending o k ∨ T.pc = .wait o k →
    Due B s T.localClk o k

/-! ### What steps do to the chains -/

/-- Chains grow at the front by copies without a clock, and clocks are only set, to
readings that are not before any earlier one. -/
structure Grows (B : ℕ) (s s' : State) : Prop where
  hist : ∀ o, ∃ new, s'.hist o = new ++ s.hist o ∧ ∀ k ∈ new, s'.clkOf k = none
  clk : ∀ o, ∀ k ∈ s.hist o, s'.clkOf k = s.clkOf k ∨
    s.clkOf k = none ∧ ∃ v, s'.clkOf k = some v ∧ s.lastClk ≤ v + B

theorem Grows.vis (h : Grows B s s') {c o k : ℕ} (hc : c ≤ s.lastClk) (hk : k ∈ s.hist o) :
    Vis B s' c k ↔ Vis B s c k := by
  rcases h.clk o k hk with he | ⟨hn, v, hv, hle⟩
  · rw [Vis, Vis, he]
  · constructor
    · rintro ⟨W, hW, hlt⟩
      rw [hv, Option.some_inj] at hW
      subst hW
      rw [ltClock_iff] at hlt
      omega
    · rintro ⟨W, hW, -⟩
      rw [hn] at hW
      cases hW

theorem Grows.new (h : Grows B s s') (o c : ℕ) : ∃ new, s'.hist o = new ++ s.hist o ∧
    ∀ k ∈ new, ¬ Vis B s' c k := by
  obtain ⟨new, h1, h2⟩ := h.hist o
  refine ⟨new, h1, fun k hk => ?_⟩
  rintro ⟨W, hW, -⟩
  rw [h2 k hk] at hW
  cases hW

theorem Grows.due (h : Grows B s s') {c o k : ℕ} (hc : c ≤ s.lastClk) (hd : Due B s c o k) :
    Due B s' c o k := by
  obtain ⟨newer, older, h1, h2⟩ := hd
  obtain ⟨new, h3, h4⟩ := h.new o c
  refine ⟨new ++ newer, older, by rw [h3, h1, List.append_assoc], fun k' hk' => ?_⟩
  rcases List.mem_append.mp hk' with hk' | hk'
  · exact h4 k' hk'
  · rw [h.vis hc (o := o) (by rw [h1]; simp [hk'])]
    exact h2 k' hk'

theorem Grows.newest (h : Grows B s s') {c o : ℕ} {r : Option ℕ} (hc : c ≤ s.lastClk)
    (hn : Newest B s c o r) : Newest B s' c o r := by
  obtain ⟨new, h3, h4⟩ := h.new o c
  cases r with
  | none =>
    intro k hk
    rw [h3] at hk
    rcases List.mem_append.mp hk with hk | hk
    · exact h4 k hk
    · rw [h.vis hc hk]
      exact hn k hk
  | some k =>
    obtain ⟨newer, older, h1, h2, hv⟩ := hn
    obtain ⟨newer', older', h1', h2'⟩ := h.due hc ⟨newer, older, h1, h2⟩
    refine ⟨newer', older', h1', h2', ?_⟩
    rw [h.vis hc (o := o) (by rw [h1]; simp)]
    exact hv

/-- The readers that a step leaves alone. -/
theorem Grows.readInv (h : Grows B s s') {T : Thread} (hc : T.localClk ≤ s.lastClk)
    (hr : ReadInv B s T) : ReadInv B s' T :=
  ⟨fun p hp => h.newest hc (hr.reads p hp), fun o k hpc => h.due hc (hr.due o k hpc)⟩

/-- A step that touches no chain and no clock. -/
theorem grows_of_eq (hh : s'.hist = s.hist) (hk : ∀ o, ∀ k ∈ s.hist o, s'.clkOf k = s.clkOf k) :
    Grows B s s' :=
  ⟨fun o => ⟨[], by rw [hh]; rfl, by simp⟩, fun o k hm => Or.inl (hk o k hm)⟩

theorem Linked.congr {ks : List ℕ} (h : Linked B s ks)
    (hp : ∀ k ∈ ks, (s'.copies k).pCopy = (s.copies k).pCopy ∧
      (s'.wss (s'.copies k).ws).localClk = (s.wss (s.copies k).ws).localClk)
    (hc : ∀ k ∈ ks, ∀ W, s.clkOf k = some W → s'.clkOf k = some W) : Linked B s' ks := by
  induction ks with
  | nil => trivial
  | cons k ks ih =>
    obtain ⟨h1, h2, h3⟩ := h
    obtain ⟨e1, e2⟩ := hp k List.mem_cons_self
    refine ⟨by rw [e1, h1], fun k' hk' => ?_, ih h3 (fun k hk => hp k (List.mem_cons_of_mem _ hk))
      fun k hk => hc k (List.mem_cons_of_mem _ hk)⟩
    obtain ⟨W, hW, hlt⟩ := h2 k' hk'
    refine ⟨W, hc k' (List.mem_cons_of_mem _ ?_) W hW, by rw [e2]; exact hlt⟩
    exact List.mem_of_mem_head? hk'

/-- The invariant of the model. -/
structure Inv (B : ℕ) (s : State) : Prop where
  mem : MemInv B s
  threads : ThreadsInv B s
  read : ∀ t, ReadInv B s (s.threads t)

/-! ### Frames -/

/-- A thread that a step leaves alone, and whose memory it does not disturb. -/
theorem ThreadInv.frame {T : Thread} (h : ThreadInv B s T) (hl : s.lastClk ≤ s'.lastClk)
    (hn : s.numWss ≤ s'.numWss) (hm : s.numCopies ≤ s'.numCopies)
    (hw : ∀ w, T.ws = some w →
      (s'.wss w).localClk = (s.wss w).localClk ∧ (s'.wss w).clk = (s.wss w).clk)
    (hc : ∀ k ∈ T.copies, (s'.copies k).obj = (s.copies k).obj ∧
      (s'.copies k).ws = (s.copies k).ws)
    (hp : ∀ k ∈ T.held, s'.pLock (s.copies k).obj = s.pLock (s.copies k).obj)
    (hh : ∀ k ∈ T.waiting, s'.hist (s.copies k).obj = s.hist (s.copies k).obj)
    (hk : ∀ o, ∀ k ∈ s.hist o, ∀ W, s.clkOf k = some W → s'.clkOf k = some W) :
    ThreadInv B s' T := by
  have hheld : ∀ k ∈ T.held, k ∈ T.copies := fun k hk => h.held.1.subset hk
  have hwait : ∀ k ∈ T.waiting, k ∈ T.copies := fun k hk => hheld k (h.waiting.1.subset hk)
  refine ⟨h.idle, le_trans h.localClk hl, fun w hws => ?_, fun k hkc => ?_, h.nodup, ⟨h.held.1, ?_⟩,
    h.waiting.1, ?_⟩
  · obtain ⟨h1, h2, h3⟩ := h.ws w hws
    obtain ⟨e1, e2⟩ := hw w hws
    exact ⟨by omega, by rw [e1, h2], by rw [e2, h3]⟩
  · obtain ⟨h1, h2⟩ := h.copies k hkc
    exact ⟨by omega, by rw [(hc k hkc).2, h2]⟩
  · intro k hkh
    rw [(hc k (hheld k hkh)).1, hp k hkh, h.held.2 k hkh]
  · intro k hkw
    obtain ⟨h1, h2⟩ := h.waiting.2 k hkw
    rw [(hc k (hwait k hkw)).1, hh k hkw]
    refine ⟨h1, fun k' hk' => ?_⟩
    obtain ⟨W, hW, hlt⟩ := h2 k' hk'
    exact ⟨W, hk _ k' (List.mem_of_mem_head? hk') W hW, hlt⟩

/-- Two threads hold no lock of one object. -/
theorem ThreadsInv.obj_ne (h : ThreadsInv B s) {t t' k k' : ℕ} (hne : t ≠ t')
    (hk : k ∈ (s.threads t).held) (hk' : k' ∈ (s.threads t').held) :
    (s.copies k).obj ≠ (s.copies k').obj := by
  intro heq
  have h1 := (h.each t).held.2 k hk
  have h2 := (h.each t').held.2 k' hk'
  rw [heq, h2, Option.some_inj] at h1
  subst h1
  have h3 := ((h.each t).copies k' ((h.each t).held.1.subset hk)).2
  have h4 := ((h.each t').copies k' ((h.each t').held.1.subset hk')).2
  exact hne (h.owner t t' _ h3 h4)

/-- Nor does one thread hold the lock of an object twice. -/
theorem ThreadInv.obj_inj {T : Thread} (h : ThreadInv B s T) {k k' : ℕ} (hk : k ∈ T.held)
    (hk' : k' ∈ T.held) (heq : (s.copies k).obj = (s.copies k').obj) : k = k' := by
  have h1 := h.held.2 k hk
  have h2 := h.held.2 k' hk'
  rw [heq, h2, Option.some_inj] at h1
  exact h1.symm

/-- A step that replaces the thread `t`, given what it does to the memory. -/
theorem inv_setThread {t : ℕ} {T : Thread} (h : ThreadsInv B s)
    (hthr : s'.threads = Function.update s.threads t T) (hm : MemInv B s')
    (hT : ThreadInv B s' T) (hT' : ∀ t', t' ≠ t → ThreadInv B s' (s.threads t'))
    (hws : ∀ w, T.ws = some w → (s.threads t).ws = some w ∨ ∀ t', (s.threads t').ws ≠ some w)
    (hr : ReadInv B s' T) (hr' : ∀ t', t' ≠ t → ReadInv B s' (s.threads t')) : Inv B s' := by
  have hat : ∀ t', s'.threads t' = if t' = t then T else s.threads t' := by
    intro t'
    rw [hthr]
    by_cases ht : t' = t
    · rw [if_pos ht, ht, Function.update_self]
    · rw [if_neg ht, Function.update_of_ne ht]
  refine ⟨hm, ⟨fun t' => ?_, fun t₁ t₂ w h1 h2 => ?_⟩, fun t' => ?_⟩
  · rw [hat]
    split
    · exact hT
    · rename_i ht
      exact hT' t' ht
  · rw [hat] at h1 h2
    split at h1 <;> split at h2
    · omega
    · rename_i e1 e2
      rcases hws w h1 with hw | hw
      · exact e1.trans (h.owner t t₂ w hw h2)
      · exact absurd h2 (hw t₂)
    · rename_i e1 e2
      rcases hws w h2 with hw | hw
      · exact (h.owner t₁ t w h1 hw).trans e2.symm
      · exact absurd h1 (hw t₁)
    · exact h.owner t₁ t₂ w h1 h2
  · rw [hat]
    split
    · exact hr
    · rename_i ht
      exact hr' t' ht

/-- A step of the thread `t` that changes no shared memory. -/
theorem inv_local {t : ℕ} {T : Thread} (h : Inv B s) (hT : ThreadInv B s T)
    (hws : ∀ w, T.ws = some w → (s.threads t).ws = some w) (hr : ReadInv B s T) :
    Inv B (s.setThread t T) := by
  refine inv_setThread (s := s) (t := t) h.threads rfl ?_ ?_ ?_ (fun w hw => Or.inl (hws w hw)) ?_ ?_
  · exact ⟨h.mem.alloc, h.mem.nodup, h.mem.head,
      fun o => (h.mem.linked o).congr (fun _ _ => ⟨rfl, rfl⟩) fun _ _ _ hW => hW,
      h.mem.lastClk, h.mem.ws, h.mem.fresh, h.mem.each, h.mem.stamp⟩
  · exact hT.frame (le_refl _) (le_refl _) (le_refl _) (fun _ _ => ⟨rfl, rfl⟩)
      (fun _ _ => ⟨rfl, rfl⟩) (fun _ _ => rfl) (fun _ _ => rfl) fun _ _ _ _ hW => hW
  · intro t' _
    exact (h.threads.each t').frame (le_refl _) (le_refl _) (le_refl _) (fun _ _ => ⟨rfl, rfl⟩)
      (fun _ _ => ⟨rfl, rfl⟩) (fun _ _ => rfl) (fun _ _ => rfl) fun _ _ _ _ hW => hW
  · exact ⟨hr.reads, hr.due⟩
  · exact fun t' _ => ⟨(h.read t').reads, (h.read t').due⟩

theorem ThreadInv.copies_nil {T : Thread} (h : ThreadInv B s T) (hw : T.ws = none) :
    T.copies = [] := by
  refine List.eq_nil_iff_forall_not_mem.mpr fun k hk => ?_
  have := (h.copies k hk).2
  rw [hw] at this
  cases this

/-- A thread whose program counter moves without changing what it holds. -/
theorem ThreadInv.congr {T T' : Thread} (h : ThreadInv B s T)
    (hi : T'.pc = .outside → T'.ws = none ∧ T'.copies = []) (hl : T'.localClk = T.localClk)
    (hw : T'.ws = T.ws) (hc : T'.copies = T.copies) (hh : T'.held = T.held)
    (hwt : T'.waiting = T.waiting) (hk : T'.clk = T.clk) : ThreadInv B s T' := by
  refine ⟨hi, by rw [hl]; exact h.localClk, ?_, ?_, by rw [hc]; exact h.nodup, ?_, ?_⟩
  · rw [hw, hl, hk]
    exact h.ws
  · rw [hw, hc]
    exact h.copies
  · rw [hh, hc]
    exact h.held
  · rw [hwt, hh, hl]
    exact h.waiting

/-! ### Writers -/

/-- The thread is in no `ts_deref`. -/
def Pc.Idle (pc : Pc) : Prop :=
  ∀ o k, ¬ (pc = .loadWrtClk o k ∨ pc = .loadPending o k ∨ pc = .wait o k)

/-- A step of the writer `t`, given what it does to the memory. -/
theorem inv_writer {t : ℕ} {T : Thread} (h : Inv B s)
    (hthr : s'.threads = Function.update s.threads t T) (hm : MemInv B s') (hg : Grows B s s')
    (hT : ThreadInv B s' T) (hT' : ∀ t', t' ≠ t → ThreadInv B s' (s.threads t'))
    (hws : ∀ w, T.ws = some w → (s.threads t).ws = some w ∨ ∀ t', (s.threads t').ws ≠ some w)
    (hl : T.localClk = (s.threads t).localClk) (hrd : T.reads = (s.threads t).reads)
    (hpc : T.pc.Idle) : Inv B s' := by
  refine inv_setThread h.threads hthr hm hT hT' hws ⟨fun p hp => ?_, ?_⟩ ?_
  · rw [hl]
    rw [hrd] at hp
    exact hg.newest (h.threads.each t).localClk ((h.read t).reads p hp)
  · intro o k hk
    exact absurd hk (hpc o k)
  · intro t' _
    exact hg.readInv (h.threads.each t').localClk (h.read t')

/-- The chains and clocks of a state that differs in the stamps, the locks and the
threads. -/
theorem MemInv.frame (h : MemInv B s) (hh : s'.hist = s.hist) (hp : s'.pCopy = s.pCopy)
    (hn : s'.numCopies = s.numCopies) (hw : s'.numWss = s.numWss)
    (hl : s'.lastClk < maxVersion)
    (hc : ∀ k, (s'.copies k).obj = (s.copies k).obj ∧ (s'.copies k).ws = (s.copies k).ws ∧
      (s'.copies k).pCopy = (s.copies k).pCopy)
    (hlc : ∀ w, (s'.wss w).localClk = (s.wss w).localClk)
    (hk : ∀ w, (s'.wss w).clk = (s.wss w).clk ∨ (s.wss w).clk = none ∧ w < s.numWss)
    (heach : ∀ w, WsInv B (s'.wss w))
    (hstamp : ∀ k < s.numCopies, (s'.copies k).wrtClk ≠ maxVersion →
      s'.clkOf k = some (s'.copies k).wrtClk) : MemInv B s' := by
  refine ⟨?_, by rw [hh]; exact h.nodup, by rw [hh, hp]; exact h.head, ?_, hl, ?_, ?_, heach,
    by rw [hn]; exact hstamp⟩
  · intro o k hk
    rw [hh] at hk
    rw [hn, (hc k).1]
    exact h.alloc o k hk
  · intro o
    rw [hh]
    refine (h.linked o).congr (fun k _ => ⟨(hc k).2.2, by rw [(hc k).2.1, hlc]⟩) ?_
    intro k _ W hW
    rw [State.clkOf, (hc k).2.1]
    rcases hk (s.copies k).ws with he | ⟨he, -⟩
    · rw [he]
      exact hW
    · rw [State.clkOf, he] at hW
      cases hW
  · intro k hk
    rw [hn] at hk
    rw [hw, (hc k).2.1]
    exact h.ws k hk
  · intro w hle
    rw [hw] at hle
    rcases hk w with he | ⟨-, hlt⟩
    · rw [he]
      exact h.fresh w hle
    · omega

/-- The thread `t` with a write set: `ts_begin` leaves its allocation to the first
lock. -/
def State.withWs (s : State) (t : ℕ) : State :=
  match (s.threads t).ws with
  | some _ => s
  | none =>
    { s with
      wss := Function.update s.wss s.numWss
        ⟨maxVersion, maxVersion, (s.threads t).localClk, none⟩
      numWss := s.numWss + 1
      threads := Function.update s.threads t { s.threads t with ws := some s.numWss } }

theorem inv_withWs {t : ℕ} (h : Inv B s) (hpc : (s.threads t).pc = .inTx) :
    Inv B (s.withWs t) := by
  unfold State.withWs
  split
  · exact h
  rename_i hnone
  have hT := h.threads.each t
  have hold : ∀ w < s.numWss, Function.update s.wss s.numWss
      ⟨maxVersion, maxVersion, (s.threads t).localClk, none⟩ w = s.wss w := by
    intro w hw
    exact Function.update_of_ne (by omega) _ _
  have hcopies := hT.copies_nil hnone
  have hclk : ∀ o, ∀ k ∈ s.hist o, (Function.update s.wss s.numWss
      ⟨maxVersion, maxVersion, (s.threads t).localClk, none⟩ (s.copies k).ws).clk =
        s.clkOf k := by
    intro o k hk
    rw [hold _ (h.mem.ws k (h.mem.alloc o k hk).1)]
    rfl
  have hnew : ∀ w, (Function.update s.wss s.numWss
      ⟨maxVersion, maxVersion, (s.threads t).localClk, none⟩ w) = s.wss w ∨ w = s.numWss ∧
      (Function.update s.wss s.numWss
        ⟨maxVersion, maxVersion, (s.threads t).localClk, none⟩ w) =
          (⟨maxVersion, maxVersion, (s.threads t).localClk, none⟩ : Ws) := by
    intro w
    by_cases hw : w = s.numWss
    · right
      exact ⟨hw, by rw [hw, Function.update_self]⟩
    · left
      exact Function.update_of_ne hw _ _
  refine inv_writer h rfl ?_ (grows_of_eq rfl hclk) ?_ ?_ ?_ rfl rfl ?_
  · refine ⟨h.mem.alloc, h.mem.nodup, h.mem.head, fun o => ?_, h.mem.lastClk, ?_, ?_, ?_, ?_⟩
    · refine (h.mem.linked o).congr (fun k hk => ⟨rfl, ?_⟩) fun k hk W hW => ?_
      · show (Function.update s.wss _ _ _).localClk = _
        rw [hold _ (h.mem.ws k (h.mem.alloc o k hk).1)]
      · exact (hclk o k hk).trans hW
    · intro k hk
      exact Nat.lt_succ_of_lt (h.mem.ws k hk)
    · intro w hw
      show (Function.update s.wss _ _ _).clk = _
      rcases hnew w with he | ⟨-, he⟩ <;> rw [he]
      exact h.mem.fresh w (Nat.le_of_succ_le hw)
    · intro w
      show WsInv B (Function.update s.wss _ _ w)
      rcases hnew w with he | ⟨-, he⟩ <;> rw [he]
      · exact h.mem.each w
      · exact ⟨fun W hW => (by cases hW), fun hne => absurd rfl hne, fun hne => absurd rfl hne⟩
    · intro k hk hne
      show (Function.update s.wss _ _ _).clk = _
      rw [hold _ (h.mem.ws k hk)]
      exact h.mem.stamp k hk hne
  · refine ⟨?_, hT.localClk, ?_, ?_, hT.nodup, ?_, ?_⟩
    · intro hout
      exact absurd (hpc.symm.trans hout) (by simp)
    · intro w hw
      cases hw
      refine ⟨Nat.lt_succ_self _, ?_, ?_⟩
      · show (Function.update s.wss _ _ _).localClk = _
        rw [Function.update_self]
      · show (Function.update s.wss _ _ _).clk = _
        rw [Function.update_self]
        simp [Thread.clk, hpc]
    · intro k hk
      rw [show (s.threads t).copies = [] from hcopies] at hk
      cases hk
    · simp [Thread.held, hpc, hcopies]
    · simp [Thread.held, Thread.waiting, hpc, hcopies]
  · intro t' _
    refine (h.threads.each t').frame (le_refl _) (Nat.le_succ _) (le_refl _) ?_
      (fun _ _ => ⟨rfl, rfl⟩) (fun _ _ => rfl) (fun _ _ => rfl) ?_
    · intro w hw
      show (Function.update s.wss _ _ _).localClk = _ ∧ (Function.update s.wss _ _ _).clk = _
      rw [hold w ((h.threads.each t').ws w hw).1]
      exact ⟨rfl, rfl⟩
    · intro o k hk W hW
      exact (hclk o k hk).trans hW
  · intro w hw
    cases hw
    right
    intro t' ht'
    exact absurd ((h.threads.each t').ws _ ht').1 (by simp)
  · intro o k
    simp [hpc]

/-- The thread `t` locks `o` for its write set `w`. -/
def State.addCopy (s : State) (t o w : ℕ) (kind : Kind) : State :=
  { s with
    copies := Function.update s.copies s.numCopies ⟨o, w, kind, maxVersion, none⟩
    numCopies := s.numCopies + 1
    pLock := Function.update s.pLock o (some s.numCopies)
    threads := Function.update s.threads t
      { s.threads t with copies := (s.threads t).copies ++ [s.numCopies] } }

theorem lock_eq {t o : ℕ} {kind : Kind} (hs : lock B s t o kind = some s') :
    (s.threads t).pc = .inTx ∧ s.pLock o = none ∧
    (∀ k ∈ s.pCopy o, ltClock B (s.copies k).wrtClk (s.threads t).localClk) ∧
    ∃ w, ((s.withWs t).threads t).ws = some w ∧ s' = (s.withWs t).addCopy t o w kind := by
  unfold lock at hs
  dsimp only at hs
  split at hs <;> cases hs
  rename_i hc
  obtain ⟨hpc, -, hfree, hold⟩ := hc
  refine ⟨hpc, hfree, hold, (s.threads t).ws.getD s.numWss, ?_⟩
  unfold State.withWs State.addCopy
  cases hw : (s.threads t).ws with
  | none => simp
  | some w =>
    simp [hw]

theorem inv_addCopy {t o w : ℕ} {kind : Kind} (h : Inv B s) (hpc : (s.threads t).pc = .inTx)
    (hw : (s.threads t).ws = some w) (hfree : s.pLock o = none)
    (hold : ∀ k ∈ s.pCopy o, ltClock B (s.copies k).wrtClk (s.threads t).localClk) :
    Inv B (s.addCopy t o w kind) := by
  have hT := h.threads.each t
  have hcopy : ∀ k < s.numCopies, (s.addCopy t o w kind).copies k = s.copies k := by
    intro k hk
    exact Function.update_of_ne (by omega) _ _
  have hnew : (s.addCopy t o w kind).copies s.numCopies = ⟨o, w, kind, maxVersion, none⟩ :=
    Function.update_self _ _ _
  have hclk : ∀ o', ∀ k ∈ s.hist o', (s.addCopy t o w kind).clkOf k = s.clkOf k := by
    intro o' k hk
    rw [State.clkOf, hcopy k (h.mem.alloc o' k hk).1]
    rfl
  -- the locks that are held are those of other objects
  have hlock : ∀ t', ∀ k ∈ (s.threads t').held,
      (s.addCopy t o w kind).pLock (s.copies k).obj = s.pLock (s.copies k).obj := by
    intro t' k hk
    refine Function.update_of_ne ?_ _ _
    intro he
    have := (h.threads.each t').held.2 k hk
    rw [he, hfree] at this
    cases this
  have hheld : (s.threads t).held = (s.threads t).copies := by simp [Thread.held, hpc]
  have hwait : (s.threads t).waiting = (s.threads t).copies := by simp [Thread.waiting, hpc]
  have hlt : ∀ k ∈ (s.threads t).copies, k < s.numCopies := fun k hk => (hT.copies k hk).1
  refine inv_writer h rfl ?_ (grows_of_eq rfl hclk) ?_ ?_ (fun w' hw' => Or.inl hw') rfl rfl ?_
  · refine ⟨fun o' k hk => ?_, h.mem.nodup, h.mem.head, fun o' => ?_, h.mem.lastClk, ?_,
      h.mem.fresh, h.mem.each, ?_⟩
    · obtain ⟨h1, h2⟩ := h.mem.alloc o' k hk
      rw [hcopy k h1]
      exact ⟨Nat.lt_succ_of_lt h1, h2⟩
    · refine (h.mem.linked o').congr (fun k hk => ?_) fun k hk W hW => (hclk o' k hk).trans hW
      rw [hcopy k (h.mem.alloc o' k hk).1]
      exact ⟨rfl, rfl⟩
    · intro k hk
      rcases Nat.lt_succ_iff_lt_or_eq.mp hk with hk | rfl
      · rw [hcopy k hk]
        exact h.mem.ws k hk
      · rw [hnew]
        exact (hT.ws w hw).1
    · intro k hk hne
      rcases Nat.lt_succ_iff_lt_or_eq.mp hk with hk | rfl
      · rw [State.clkOf, hcopy k hk]
        rw [hcopy k hk] at hne
        exact h.mem.stamp k hk hne
      · rw [hnew] at hne
        exact absurd rfl hne
  · have hheld' : ({ s.threads t with copies := (s.threads t).copies ++ [s.numCopies] } :
        Thread).held = (s.threads t).copies ++ [s.numCopies] := by simp [Thread.held, hpc]
    have hwait' : ({ s.threads t with copies := (s.threads t).copies ++ [s.numCopies] } :
        Thread).waiting = (s.threads t).copies ++ [s.numCopies] := by
      simp [Thread.waiting, hpc]
    refine ⟨?_, hT.localClk, ?_, ?_, ?_, ?_, ?_⟩
    · intro hout
      exact absurd (hpc.symm.trans hout) (by simp)
    · intro w' hw'
      obtain ⟨h1, h2, h3⟩ := hT.ws w' hw'
      exact ⟨h1, h2, h3.trans (by simp [Thread.clk, hpc])⟩
    · intro k hk
      rcases List.mem_append.mp hk with hk | hk
      · rw [hcopy k (hlt k hk)]
        exact ⟨Nat.lt_succ_of_lt (hlt k hk), (hT.copies k hk).2⟩
      · rw [List.mem_singleton.mp hk, hnew]
        exact ⟨Nat.lt_succ_self _, hw⟩
    · refine List.nodup_append.mpr ⟨hT.nodup, by simp, ?_⟩
      intro k hk k' hk'
      rw [List.mem_singleton.mp hk']
      exact Nat.ne_of_lt (hlt k hk)
    · rw [hheld']
      refine ⟨List.Sublist.refl _, fun k hk => ?_⟩
      rcases List.mem_append.mp hk with hk | hk
      · rw [← hheld] at hk
        rw [hcopy k (hlt k (hheld ▸ hk)), hlock t k hk]
        exact hT.held.2 k hk
      · rw [List.mem_singleton.mp hk, hnew]
        exact Function.update_self _ _ _
    · rw [hheld', hwait']
      refine ⟨List.Sublist.refl _, fun k hk => ?_⟩
      rcases List.mem_append.mp hk with hk | hk
      · rw [hcopy k (hlt k hk)]
        obtain ⟨h1, h2⟩ := hT.waiting.2 k (hwait ▸ hk)
        refine ⟨h1, fun k' hk' => ?_⟩
        rw [hclk _ k' (List.mem_of_mem_head? hk')]
        exact h2 k' hk'
      · rw [List.mem_singleton.mp hk, hnew]
        refine ⟨fun hm => absurd (h.mem.alloc o _ hm).1 (lt_irrefl _), fun k' hk' => ?_⟩
        have hlt' := hold k' (by rw [h.mem.head o]; exact hk')
        have hk'' : k' ∈ s.hist o := List.mem_of_mem_head? hk'
        refine ⟨_, ?_, hlt'⟩
        rw [hclk o k' hk'']
        refine h.mem.stamp k' (h.mem.alloc o k' hk'').1 fun hmax => ?_
        rw [hmax, ltClock_iff] at hlt'
        have h1 := hT.localClk
        have h2 := h.mem.lastClk
        omega
  · intro t' _
    have hT' := h.threads.each t'
    refine hT'.frame (le_refl _) (le_refl _) (Nat.le_succ _) (fun _ _ => ⟨rfl, rfl⟩) ?_
      (hlock t') (fun _ _ => rfl) fun o' k hk W hW => (hclk o' k hk).trans hW
    intro k hk
    rw [hcopy k (hT'.copies k hk).1]
    exact ⟨rfl, rfl⟩
  · intro o' k
    simp [hpc]

theorem inv_lock {t o : ℕ} {kind : Kind} (h : Inv B s) (hs : lock B s t o kind = some s') :
    Inv B s' := by
  obtain ⟨hpc, hfree, hold, w, hw, rfl⟩ := lock_eq hs
  have hpc' : ((s.withWs t).threads t).pc = .inTx ∧
      ((s.withWs t).threads t).localClk = (s.threads t).localClk := by
    unfold State.withWs
    split <;> simp [hpc]
  have hsame : (s.withWs t).pLock = s.pLock ∧ (s.withWs t).pCopy = s.pCopy ∧
      (s.withWs t).copies = s.copies := by
    unfold State.withWs
    split <;> exact ⟨rfl, rfl, rfl⟩
  refine inv_addCopy (inv_withWs h hpc) hpc'.1 hw (by rw [hsame.1]; exact hfree) ?_
  rw [hsame.2.1, hsame.2.2, hpc'.2]
  exact hold

/-- A step that replaces the copy `k` by one that differs in its kind or its stamp, the
thread `t` moving on, and that may unlock the object of `k`. -/
theorem inv_setCopy {t k : ℕ} {c : Copy} {T : Thread} {pLock : ℕ → Option ℕ} (h : Inv B s)
    (hc : c.obj = (s.copies k).obj ∧ c.ws = (s.copies k).ws ∧ c.pCopy = (s.copies k).pCopy)
    (hstamp : c.wrtClk ≠ maxVersion → c.wrtClk = (s.copies k).wrtClk ∨
      s.clkOf k = some c.wrtClk) (hT : ThreadInv B s T)
    (hlock : ∀ k' ∈ T.held, pLock (s.copies k').obj = s.pLock (s.copies k').obj)
    (hlock' : ∀ t' ≠ t, ∀ k' ∈ (s.threads t').held,
      pLock (s.copies k').obj = s.pLock (s.copies k').obj)
    (hws : T.ws = (s.threads t).ws) (hl : T.localClk = (s.threads t).localClk)
    (hrd : T.reads = (s.threads t).reads) (hpc : T.pc.Idle) :
    Inv B { (s.setCopy k c).setThread t T with pLock := pLock } := by
  have hcopy : ∀ k', (Function.update s.copies k c k').obj = (s.copies k').obj ∧
      (Function.update s.copies k c k').ws = (s.copies k').ws ∧
      (Function.update s.copies k c k').pCopy = (s.copies k').pCopy := by
    intro k'
    by_cases he : k' = k
    · rw [he, Function.update_self]
      exact hc
    · rw [Function.update_of_ne he]
      exact ⟨rfl, rfl, rfl⟩
  have hclk : ∀ k', (s.wss (Function.update s.copies k c k').ws).clk = s.clkOf k' := by
    intro k'
    rw [(hcopy k').2.1]
    rfl
  refine inv_writer h rfl ?_ (grows_of_eq rfl fun _ k' _ => hclk k') ?_ ?_
    (fun w hw => Or.inl (hws ▸ hw)) hl hrd hpc
  · refine h.mem.frame rfl rfl rfl rfl h.mem.lastClk hcopy (fun _ => rfl) (fun _ => Or.inl rfl)
      h.mem.each fun k' hk' => ?_
    show (Function.update s.copies k c k').wrtClk ≠ _ →
      (s.wss (Function.update s.copies k c k').ws).clk =
        some (Function.update s.copies k c k').wrtClk
    intro hne
    rw [hclk k']
    by_cases he : k' = k
    · subst he
      rw [Function.update_self] at hne ⊢
      rcases hstamp hne with he | he
      · rw [he] at hne ⊢
        exact h.mem.stamp k' hk' hne
      · exact he
    · rw [Function.update_of_ne he] at hne ⊢
      exact h.mem.stamp k' hk' hne
  · exact hT.frame (le_refl _) (le_refl _) (le_refl _) (fun _ _ => ⟨rfl, rfl⟩)
      (fun k' _ => ⟨(hcopy k').1, (hcopy k').2.1⟩) hlock (fun _ _ => rfl)
      fun _ k' _ W hW => (hclk k').trans hW
  · intro t' hne
    exact (h.threads.each t').frame (le_refl _) (le_refl _) (le_refl _) (fun _ _ => ⟨rfl, rfl⟩)
      (fun k' _ => ⟨(hcopy k').1, (hcopy k').2.1⟩) (hlock' t' hne) (fun _ _ => rfl)
      fun _ k' _ W hW => (hclk k').trans hW

theorem inv_free {t k : ℕ} (h : Inv B s) (hs : free s t k = some s') : Inv B s' := by
  unfold free at hs
  split at hs <;> cases hs
  rename_i hc
  have hfree : Inv B { (s.setCopy k { s.copies k with kind := .free }).setThread t (s.threads t)
      with pLock := s.pLock } :=
    inv_setCopy h ⟨rfl, rfl, rfl⟩ (fun _ => Or.inl rfl) (h.threads.each t) (fun _ _ => rfl)
      (fun _ _ _ _ => rfl) rfl rfl rfl (by intro o k'; simp [hc.1])
  rw [State.setThread, show (s.setCopy k { s.copies k with kind := .free }).threads = s.threads
    from rfl, Function.update_eq_self] at hfree
  exact hfree

/-- A step of the writer `t` that changes no shared memory. -/
theorem inv_writerLocal {t : ℕ} {T : Thread} (h : Inv B s) (hT : ThreadInv B s T)
    (hws : ∀ w, T.ws = some w → (s.threads t).ws = some w)
    (hl : T.localClk = (s.threads t).localClk) (hrd : T.reads = (s.threads t).reads)
    (hpc : T.pc.Idle) : Inv B (s.setThread t T) := by
  refine inv_local h hT hws ⟨?_, fun o k hk => absurd hk (hpc o k)⟩
  rw [hl, hrd]
  exact (h.read t).reads

/-- A thread that has given up its write set. -/
theorem ThreadInv.leave {T : Thread} (h : ThreadInv B s T) :
    ThreadInv B s { T with pc := .outside, ws := none, copies := [] } :=
  ⟨fun _ => ⟨rfl, rfl⟩, h.localClk, fun _ hw => (by cases hw), fun _ hk => (by cases hk),
    List.nodup_nil, by simp [Thread.held], by simp [Thread.held, Thread.waiting]⟩

theorem inv_endTx {t : ℕ} (h : Inv B s) (hpc : (s.threads t).pc = .inTx) :
    Inv B (s.setThread t { s.threads t with
      pc := if (s.threads t).ws = none then .outside else .insert (s.threads t).copies }) := by
  have hT := h.threads.each t
  refine inv_writerLocal h ?_ (fun w hw => hw) rfl rfl ?_
  · split
    · rename_i hw
      refine hT.congr ?_ rfl rfl rfl ?_ ?_ ?_
      · intro _
        exact ⟨hw, hT.copies_nil hw⟩
      · simp [Thread.held, hpc, hT.copies_nil hw]
      · simp [Thread.waiting, hpc, hT.copies_nil hw]
      · simp [Thread.clk, hpc]
    · exact hT.congr (by simp) rfl rfl rfl (by simp [Thread.held, hpc])
        (by simp [Thread.waiting, hpc]) (by simp [Thread.clk, hpc])
  · intro o k
    dsimp only
    split <;> simp

theorem inv_insert {t k : ℕ} {ks : List ℕ} (h : Inv B s)
    (hpc : (s.threads t).pc = .insert (k :: ks)) :
    Inv B ((moveLockToCopy s k).setThread t { s.threads t with pc := .insert ks }) := by
  have hT := h.threads.each t
  have hwait : (s.threads t).waiting = k :: ks := by simp [Thread.waiting, hpc]
  have hheld : (s.threads t).held = (s.threads t).copies := by simp [Thread.held, hpc]
  have hk : k ∈ (s.threads t).waiting := by rw [hwait]; exact List.mem_cons_self
  have hkh : k ∈ (s.threads t).held := hT.waiting.1.subset hk
  have hT' : ThreadInv B s { s.threads t with pc := .insert ks } := by
    refine ⟨fun hout => (by cases hout), hT.localClk, ?_, hT.copies, hT.nodup, ?_, ?_, ?_⟩
    · intro w' hw'
      obtain ⟨h1, h2, h3⟩ := hT.ws w' hw'
      exact ⟨h1, h2, h3.trans (by simp [Thread.clk, hpc])⟩
    · have := hT.held
      rw [hheld] at this
      exact this
    · have := hT.waiting.1
      rw [hwait, hheld] at this
      exact (List.sublist_cons_self k ks).trans this
    · intro k' hk'
      exact hT.waiting.2 k' (by rw [hwait]; exact List.mem_cons_of_mem _ hk')
  unfold moveLockToCopy
  dsimp only
  split
  · -- the copies of a write set go to the chains of different objects
    obtain ⟨hnot, hvis⟩ := hT.waiting.2 k hk
    obtain ⟨hlt, hws⟩ := hT.copies k (hT.held.1.subset hkh)
    obtain ⟨-, hlc, hclk⟩ := hT.ws _ hws
    set c := s.copies k with hc
    have hcopy : ∀ k', k' ≠ k →
        Function.update s.copies k { c with pCopy := s.pCopy c.obj } k' = s.copies k' :=
      fun k' hne => Function.update_of_ne hne _ _
    have hcopy' : ∀ k', (Function.update s.copies k { c with pCopy := s.pCopy c.obj } k').obj =
        (s.copies k').obj ∧
        (Function.update s.copies k { c with pCopy := s.pCopy c.obj } k').ws =
          (s.copies k').ws ∧
        (Function.update s.copies k { c with pCopy := s.pCopy c.obj } k').wrtClk =
          (s.copies k').wrtClk := by
      intro k'
      by_cases he : k' = k
      · rw [he, Function.update_self]
        exact ⟨rfl, rfl, rfl⟩
      · rw [hcopy k' he]
        exact ⟨rfl, rfl, rfl⟩
    have hclk' : ∀ k', (s.wss (Function.update s.copies k
        { c with pCopy := s.pCopy c.obj } k').ws).clk = s.clkOf k' := by
      intro k'
      rw [(hcopy' k').2.1]
      rfl
    have hhist : ∀ o ≠ c.obj, Function.update s.hist c.obj (k :: s.hist c.obj) o = s.hist o :=
      fun o hne => Function.update_of_ne hne _ _
    have hlink : ∀ o, k ∉ s.hist o → Linked B
        { (s.setCopy k { c with pCopy := s.pCopy c.obj }).setThread t
            { s.threads t with pc := .insert ks } with
          pCopy := Function.update s.pCopy c.obj (some k)
          hist := Function.update s.hist c.obj (k :: s.hist c.obj) } (s.hist o) := by
      intro o hko
      refine (h.mem.linked o).congr (fun k' hk' => ?_) fun k' _ W hW => (hclk' k').trans hW
      show (Function.update s.copies k _ k').pCopy = _ ∧
        (s.wss (Function.update s.copies k _ k').ws).localClk = _
      rw [hcopy k' (fun he => hko (he ▸ hk'))]
      exact ⟨rfl, rfl⟩
    refine inv_writer (t := t) (T := { s.threads t with pc := .insert ks }) h rfl ?_ ?_ ?_ ?_
      (fun w' hw' => Or.inl hw') rfl rfl (by intro o' k'; simp)
    · refine ⟨fun o k' hk' => ?_, fun o => ?_, fun o => ?_, fun o => ?_, h.mem.lastClk,
        fun k' hk' => ?_, h.mem.fresh, h.mem.each, fun k' hk' => ?_⟩
      · change k' ∈ Function.update s.hist c.obj (k :: s.hist c.obj) o at hk'
        show k' < s.numCopies ∧ (Function.update s.copies k _ k').obj = o
        rw [(hcopy' k').1]
        by_cases ho : o = c.obj
        · rw [ho, Function.update_self] at hk'
          rcases List.mem_cons.mp hk' with rfl | hk'
          · exact ⟨hlt, ho.symm⟩
          · rw [ho]
            exact h.mem.alloc _ k' hk'
        · rw [hhist o ho] at hk'
          exact h.mem.alloc o k' hk'
      · show (Function.update s.hist c.obj (k :: s.hist c.obj) o).Nodup
        by_cases ho : o = c.obj
        · rw [ho, Function.update_self]
          exact List.nodup_cons.mpr ⟨hnot, h.mem.nodup _⟩
        · rw [hhist o ho]
          exact h.mem.nodup o
      · show Function.update s.pCopy c.obj (some k) o =
          (Function.update s.hist c.obj (k :: s.hist c.obj) o).head?
        by_cases ho : o = c.obj
        · rw [ho, Function.update_self, Function.update_self]
          rfl
        · rw [Function.update_of_ne ho, hhist o ho]
          exact h.mem.head o
      · show Linked B _ (Function.update s.hist c.obj (k :: s.hist c.obj) o)
        by_cases ho : o = c.obj
        · rw [ho, Function.update_self]
          refine ⟨?_, fun k' hk' => ?_, hlink c.obj hnot⟩
          · show (Function.update s.copies k _ k).pCopy = _
            rw [Function.update_self]
            exact h.mem.head _
          · obtain ⟨W, hW, hltW⟩ := hvis k' hk'
            refine ⟨W, (hclk' k').trans hW, ?_⟩
            show ltClock B W (s.wss (Function.update s.copies k _ k).ws).localClk
            rw [(hcopy' k).2.1, hlc]
            exact hltW
        · rw [hhist o ho]
          refine hlink o fun hm => ho ?_
          exact ((h.mem.alloc o k hm).2).symm
      · show (Function.update s.copies k _ k').ws < _
        rw [(hcopy' k').2.1]
        exact h.mem.ws k' hk'
      · show (Function.update s.copies k _ k').wrtClk ≠ _ →
          (s.wss (Function.update s.copies k _ k').ws).clk = some (Function.update s.copies k _ k').wrtClk
        rw [(hcopy' k').2.2, hclk' k']
        exact h.mem.stamp k' hk'
    · refine ⟨fun o => ?_, fun o k' hk' => Or.inl (hclk' k')⟩
      by_cases ho : o = c.obj
      · refine ⟨[k], ?_, fun k' hk' => ?_⟩
        · show Function.update s.hist c.obj (k :: s.hist c.obj) o = _
          rw [ho, Function.update_self]
          rfl
        · rw [List.mem_singleton.mp hk']
          refine (hclk' k).trans (hclk.trans ?_)
          simp [Thread.clk, hpc]
      · exact ⟨[], hhist o ho, by simp⟩
    · refine hT'.frame (le_refl _) (le_refl _) (le_refl _) (fun _ _ => ⟨rfl, rfl⟩)
        (fun k' _ => ⟨(hcopy' k').1, (hcopy' k').2.1⟩) (fun _ _ => rfl) (fun k' hk' => ?_)
        fun _ k' _ W hW => (hclk' k').trans hW
      change k' ∈ ks at hk'
      refine hhist _ fun he => ?_
      have hk'w : k' ∈ (s.threads t).waiting := by
        rw [hwait]
        exact List.mem_cons_of_mem _ hk'
      have := hT.obj_inj (hT.waiting.1.subset hk'w) hkh he
      have hnd : (k :: ks).Nodup := by
        rw [← hwait]
        exact hT.nodup.sublist (hT.waiting.1.trans hT.held.1)
      exact (List.nodup_cons.mp hnd).1 (this ▸ hk')
    · intro t' hne
      refine (h.threads.each t').frame (le_refl _) (le_refl _) (le_refl _)
        (fun _ _ => ⟨rfl, rfl⟩) (fun k' _ => ⟨(hcopy' k').1, (hcopy' k').2.1⟩)
        (fun _ _ => rfl) (fun k' hk' => ?_) fun _ k' _ W hW => (hclk' k').trans hW
      exact hhist _ (h.threads.obj_ne hne ((h.threads.each t').waiting.1.subset hk') hkh)
  · exact inv_writerLocal h hT' (fun _ hw' => hw') rfl rfl (by intro o' k'; simp)
  · exact inv_writerLocal h hT' (fun _ hw' => hw') rfl rfl (by intro o' k'; simp)

/-- A step of the commit of `t` that writes its write set. -/
theorem inv_setWs {t w L : ℕ} {x : Ws} {pc : Pc} (h : Inv B s)
    (hw : (s.threads t).ws = some w) (hlc : x.localClk = (s.wss w).localClk) (hx : WsInv B x)
    (hclk : x.clk = (s.wss w).clk ∨
      (s.wss w).clk = none ∧ ∃ v, x.clk = some v ∧ s.lastClk ≤ v + B)
    (hL : s.lastClk ≤ L) (hLmax : L < maxVersion)
    (hpc : ({ s.threads t with pc := pc } : Thread).held.Sublist (s.threads t).held)
    (hwait : ({ s.threads t with pc := pc } : Thread).waiting = [])
    (hc : ({ s.threads t with pc := pc } : Thread).clk = x.clk) (hidle : pc.Idle)
    (hin : pc ≠ .outside) :
    Inv B { (s.setWs w x).setThread t { s.threads t with pc := pc } with lastClk := L } := by
  have hT := h.threads.each t
  obtain ⟨hwlt, -, -⟩ := hT.ws w hw
  have hat : ∀ w', Function.update s.wss w x w' = if w' = w then x else s.wss w' := by
    intro w'
    by_cases he : w' = w
    · rw [if_pos he, he, Function.update_self]
    · rw [if_neg he, Function.update_of_ne he]
  have hkeep : ∀ w', (Function.update s.wss w x w').clk = (s.wss w').clk ∨
      (s.wss w').clk = none ∧ w' = w ∧ ∃ v, x.clk = some v ∧ s.lastClk ≤ v + B := by
    intro w'
    rw [hat]
    split
    · rename_i he
      subst he
      exact hclk.imp_right fun hn => ⟨hn.1, rfl, hn.2⟩
    · exact Or.inl rfl
  have hset : ∀ k W, s.clkOf k = some W →
      (Function.update s.wss w x (s.copies k).ws).clk = some W := by
    intro k W hW
    rcases hkeep (s.copies k).ws with he | ⟨he, -⟩
    · exact he.trans hW
    · rw [State.clkOf, he] at hW
      cases hW
  have hgrows : Grows B s
      { (s.setWs w x).setThread t { s.threads t with pc := pc } with lastClk := L } := by
    refine ⟨fun o => ⟨[], rfl, by simp⟩, fun o k _ => ?_⟩
    rcases hkeep (s.copies k).ws with he | ⟨he, hww, v, hv, hle⟩
    · exact Or.inl he
    · refine Or.inr ⟨he, v, ?_, hle⟩
      show (Function.update s.wss w x (s.copies k).ws).clk = some v
      rw [hww, Function.update_self]
      exact hv
  refine inv_writer h rfl ?_ hgrows ?_ ?_ (fun w' hw' => Or.inl hw') rfl rfl hidle
  · refine h.mem.frame rfl rfl rfl rfl hLmax (fun _ => ⟨rfl, rfl, rfl⟩) (fun w' => ?_)
      (fun w' => ?_) (fun w' => ?_) fun k hk hne => hset k _ (h.mem.stamp k hk hne)
    · show (Function.update s.wss w x w').localClk = _
      rw [hat]
      split
      · rename_i he
        rw [hlc, he]
      · rfl
    · rcases hkeep w' with he | ⟨he, rfl, -⟩
      · exact Or.inl he
      · exact Or.inr ⟨he, hwlt⟩
    · show WsInv B (Function.update s.wss w x w')
      rw [hat]
      split
      · exact hx
      · exact h.mem.each w'
  · refine ⟨fun hout => absurd hout hin, le_trans hT.localClk hL, ?_, hT.copies, hT.nodup,
      ⟨hpc.trans hT.held.1, fun k hk => hT.held.2 k (hpc.subset hk)⟩, ?_⟩
    · intro w' hw'
      have hww : w' = w := by
        rw [show (s.threads t).ws = some w' from hw', Option.some_inj] at hw
        exact hw
      subst hww
      refine ⟨hwlt, ?_, ?_⟩
      · show (Function.update s.wss w' x w').localClk = _
        rw [Function.update_self, hlc]
        exact (hT.ws w' hw).2.1
      · show (Function.update s.wss w' x w').clk = _
        rw [Function.update_self, hc]
    · rw [hwait]
      exact ⟨List.nil_sublist _, by simp⟩
  · intro t' hne
    refine (h.threads.each t').frame hL (le_refl _) (le_refl _) (fun w' hw' => ?_)
      (fun _ _ => ⟨rfl, rfl⟩) (fun _ _ => rfl) (fun _ _ => rfl) fun _ k _ W hW => hset k W hW
    show (Function.update s.wss w x w').localClk = _ ∧ (Function.update s.wss w x w').clk = _
    have hww : w' ≠ w := by
      rintro rfl
      exact hne (h.threads.owner t' t w' hw' hw)
    rw [Function.update_of_ne hww]
    exact ⟨rfl, rfl⟩

/-- A copy is stamped and its object unlocked. -/
theorem inv_unlockCommit {t k W : ℕ} {ks : List ℕ} (h : Inv B s)
    (hpc : (s.threads t).pc = .stamp W (k :: ks)) :
    Inv B ((unlockCommit s k W).setThread t { s.threads t with pc := .stamp W ks }) := by
  have hT := h.threads.each t
  have hheld : (s.threads t).held = k :: ks := by simp [Thread.held, hpc]
  have hkh : k ∈ (s.threads t).held := by rw [hheld]; exact List.mem_cons_self
  have hks : ∀ k' ∈ ks, k' ∈ (s.threads t).held := by
    intro k' hk'
    rw [hheld]
    exact List.mem_cons_of_mem _ hk'
  have hnot : k ∉ ks := by
    have := hT.nodup.sublist hT.held.1
    rw [hheld] at this
    exact (List.nodup_cons.mp this).1
  have hstamp : s.clkOf k = some W := by
    have hws := (hT.copies k (hT.held.1.subset hkh)).2
    exact (hT.ws _ hws).2.2.trans (by simp [Thread.clk, hpc])
  have hT' : ThreadInv B s { s.threads t with pc := .stamp W ks } := by
    refine ⟨fun hout => (by cases hout), hT.localClk, ?_, hT.copies, hT.nodup, ⟨?_, ?_⟩, ?_⟩
    · intro w' hw'
      obtain ⟨h1, h2, h3⟩ := hT.ws w' hw'
      exact ⟨h1, h2, h3.trans (by simp [Thread.clk, hpc])⟩
    · have := hT.held.1
      rw [hheld] at this
      exact (List.sublist_cons_self k ks).trans this
    · intro k' hk'
      exact hT.held.2 k' (hks k' hk')
    · exact ⟨List.nil_sublist _, fun k' hk' => by cases hk'⟩
  -- the other locks are those of other objects
  have hown : ∀ k' ∈ ks, (s.copies k').obj ≠ (s.copies k).obj := by
    intro k' hk' he
    exact hnot (hT.obj_inj (hks k' hk') hkh he ▸ hk')
  have hother : ∀ t' ≠ t, ∀ k' ∈ (s.threads t').held, (s.copies k').obj ≠ (s.copies k).obj :=
    fun t' hne k' hk' => h.threads.obj_ne hne hk' hkh
  have hfree : Inv B { (s.setCopy k { s.copies k with wrtClk := W }).setThread t
      { s.threads t with pc := .stamp W ks } with
      pLock := Function.update s.pLock (s.copies k).obj none } :=
    inv_setCopy h ⟨rfl, rfl, rfl⟩ (fun _ => Or.inr hstamp) hT'
      (fun k' hk' => Function.update_of_ne (hown k' hk') _ _)
      (fun t' hne k' hk' => Function.update_of_ne (hother t' hne k' hk') _ _) rfl rfl rfl
      (by intro o' k'; simp)
  unfold unlockCommit
  dsimp only
  split
  · exact hfree
  · exact hfree
  · exact inv_setCopy h ⟨rfl, rfl, rfl⟩ (fun _ => Or.inr hstamp) hT'
      (fun _ _ => rfl) (fun _ _ _ _ => rfl) rfl rfl rfl (by intro o' k'; simp)

theorem inv_commitStep {t v : ℕ} (h : Inv B s) (hs : commitStep B s t v = some s') :
    Inv B s' := by
  have hT := h.threads.each t
  unfold commitStep at hs
  dsimp only at hs
  rw [Option.bind_eq_bind, Option.bind_eq_some_iff] at hs
  obtain ⟨w, hw, hs⟩ := hs
  have hwt := hT.ws w hw
  split at hs
  · rename_i k ks hpc
    cases hs
    exact inv_insert h hpc
  · rename_i hpc
    split at hs <;> cases hs
    rename_i hv
    obtain ⟨⟨hlag, hmax⟩, hgt⟩ := hv
    have hnone : (s.wss w).clk = none := hwt.2.2.trans (by simp [Thread.clk, hpc])
    have hws := h.mem.each w
    refine inv_setWs h hw rfl ⟨?_, ?_, ?_⟩ (Or.inr ⟨hnone, v, rfl, hlag⟩) (le_max_left _ _)
      (max_lt h.mem.lastClk hmax) ?_ rfl rfl (by intro o' k'; simp) (by simp)
    · intro W hW
      cases hW
      rw [gtClock_iff] at hgt
      have := hwt.2.1
      show (s.wss w).localClk + _ < _
      omega
    · intro hne
      have := hws.pending hne
      rw [hnone] at this
      cases this
    · intro hne
      have := hws.wrtClk hne
      rw [hnone] at this
      cases this
    · simp [Thread.held, hpc]
  · rename_i W hpc
    cases hs
    have hclk : (s.wss w).clk = some W := hwt.2.2.trans (by simp [Thread.clk, hpc])
    exact inv_setWs h hw rfl ⟨(h.mem.each w).clk, fun _ => hclk, (h.mem.each w).wrtClk⟩
      (Or.inl rfl) (le_refl _) h.mem.lastClk (by simp [Thread.held, hpc]) rfl hclk.symm
      (by intro o' k'; simp) (by simp)
  · rename_i W hpc
    cases hs
    refine inv_writerLocal h ?_ (fun _ hw' => hw') rfl rfl (by intro o' k'; simp)
    exact hT.congr (by simp) rfl rfl rfl (by simp [Thread.held, hpc])
      (by simp [Thread.waiting, hpc]) (by simp [Thread.clk, hpc])
  · rename_i W hpc
    cases hs
    have hclk : (s.wss w).clk = some W := hwt.2.2.trans (by simp [Thread.clk, hpc])
    exact inv_setWs h hw rfl ⟨(h.mem.each w).clk, (h.mem.each w).pending, fun _ => hclk⟩
      (Or.inl rfl) (le_refl _) h.mem.lastClk (by simp [Thread.held, hpc]) rfl hclk.symm
      (by intro o' k'; simp) (by simp)
  · rename_i W k ks hpc
    cases hs
    exact inv_unlockCommit h hpc
  · cases hs
    exact inv_writerLocal h hT.leave (fun _ hw' => by cases hw') rfl rfl
      (by intro o' k'; simp)
  · cases hs

theorem inv_begin {t v : ℕ} (h : Inv B s) (hpc : (s.threads t).pc = .outside)
    (hv : Reading B s v) :
    Inv B { s.setThread t { s.threads t with pc := .inTx, localClk := v, reads := [] } with
      lastClk := max s.lastClk v } := by
  have hT := h.threads.each t
  obtain ⟨hws, hcopies⟩ := hT.idle hpc
  refine inv_setThread h.threads rfl ?_ ?_ ?_ (fun w hw => Or.inl hw) ⟨?_, ?_⟩ ?_
  · exact h.mem.frame rfl rfl rfl rfl (max_lt h.mem.lastClk hv.2) (fun _ => ⟨rfl, rfl, rfl⟩)
      (fun _ => rfl) (fun _ => Or.inl rfl) h.mem.each h.mem.stamp
  · refine ⟨fun hout => (by cases hout), le_max_right _ _, ?_, ?_, hT.nodup, ?_, ?_⟩
    · intro w hw
      rw [show (s.threads t).ws = none from hws] at hw
      cases hw
    · intro k hk
      rw [show (s.threads t).copies = [] from hcopies] at hk
      cases hk
    · simp [Thread.held, hcopies]
    · simp [Thread.held, Thread.waiting, hcopies]
  · intro t' _
    exact (h.threads.each t').frame (le_max_left _ _) (le_refl _) (le_refl _)
      (fun _ _ => ⟨rfl, rfl⟩) (fun _ _ => ⟨rfl, rfl⟩) (fun _ _ => rfl) (fun _ _ => rfl)
      fun _ _ _ _ hW => hW
  · intro p hp
    cases hp
  · rintro o k (hpc | hpc | hpc) <;> cases hpc
  · exact fun t' _ => ⟨(h.read t').reads, (h.read t').due⟩

theorem inv_abort {t : ℕ} (h : Inv B s) :
    Inv B { s.setThread t { s.threads t with pc := .outside, ws := none, copies := [] } with
      pLock := fun o => match s.pLock o with
        | none => none
        | some k => if k ∈ (s.threads t).copies then none else some k } := by
  refine inv_writer h rfl ?_ (grows_of_eq rfl fun _ _ _ => rfl) ?_ ?_
    (fun w hw => by cases hw) rfl rfl (by intro o k; simp)
  · exact h.mem.frame rfl rfl rfl rfl h.mem.lastClk (fun _ => ⟨rfl, rfl, rfl⟩)
      (fun _ => rfl) (fun _ => Or.inl rfl) h.mem.each h.mem.stamp
  · exact (h.threads.each t).leave.frame (le_refl _) (le_refl _) (le_refl _)
      (fun _ _ => ⟨rfl, rfl⟩) (fun _ _ => ⟨rfl, rfl⟩) (fun _ hk => by cases hk)
      (fun _ hk => by cases hk) fun _ _ _ _ hW => hW
  · intro t' hne
    have hT' := h.threads.each t'
    refine hT'.frame (le_refl _) (le_refl _) (le_refl _) (fun _ _ => ⟨rfl, rfl⟩)
      (fun _ _ => ⟨rfl, rfl⟩) (fun k hk => ?_) (fun _ _ => rfl) fun _ _ _ _ hW => hW
    -- a copy of another thread is no copy of the one that aborts
    have hnot : k ∉ (s.threads t).copies := by
      intro hk'
      exact hne (h.threads.owner t' t _ (hT'.copies k (hT'.held.1.subset hk)).2
        ((h.threads.each t).copies k hk').2)
    simp only [hT'.held.2 k hk, if_neg hnot]

end TimeStone.Commit
